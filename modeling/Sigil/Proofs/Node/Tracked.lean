import Sigil.Proofs.Node.Inside
import Sigil.Proofs.Node.Moved

/-!
# Expressions in parentheses

The pieces of the grammar are taken one by one, given what is known of the
readers of the expressions within them: what the first reads in parentheses,
the second reads in the longer text (`Parser.tracks_expressionUpTo`). A reader
that reads a closing parenthesis has read the one that opens it, so that every
piece has as many of the ones as of the others.
-/

namespace Sigil

theorem StringPart.text?_embedded (e : Embedding) (p : StringPart) :
    (p.embedded e).text? = p.text? := by
  cases p <;> rfl

namespace Parser

variable {e : Embedding} {c : Border e} {n depth : Nat} {b : Bool} {s t : Stream}
  {expression expression' : Parser Node}

/-! ## Primary expressions -/

/-- A node with the span of what was read for it. -/
theorem made_trails {start : Token} {f f' : Option Span → Node} (h : c.Along n depth true s t)
    (hr : ∀ span, f' (e.relabel.span span) = (f span).relabel e.relabel) :
    Trails c.Passed c.Passed (do return f (← spanFrom start))
      (do return f' (← spanFrom (start.embedded e))) s t (c.Gives n depth) :=
  .bind (spanFrom_trails h fun span => .pure id ⟨hr (some span), h⟩)

/-- A token that is no parenthesis and not the end of a text. -/
theorem taken_trails {α β : Type} {f : Token → Parser α} {g : Token → Parser β}
    {Q : α → β → Stream → Stream → Prop} (h : c.Along n depth b s t) {x : Token} (hx : s.Next x)
    (real : x.content ≠ .endOfInput) (plain : x.content ≠ .delimiter)
    (hQ : ∀ u v, c.Along (n - 1) depth true u v →
      Trails c.Passed c.Passed (f x) (g (x.embedded e)) u v Q) :
    Trails c.Passed c.Passed (advance >>= f) (advance >>= g) s t Q :=
  .bind (advance_trails h hx real (Token.turn_of_content plain depth) hQ)

section

variable (closed : ∀ ch ∈ e.more.head?, Lexer.isNameChar ch = false)
  (he : Tracks e expression expression')
include closed he

theorem stringPart_trails (p : StringPart) :
    Trails c.Passed c.Passed (stringPart expression p) (stringPart expression' (p.embedded e)) s t
      fun x x' u v => x' = Node.relabelPart e.relabel x ∧ u = s ∧ v = t := by
  cases p with
  | text s => exact .pure id ⟨rfl, rfl, rfl⟩
  | «variable» name default span => exact .pure id ⟨rfl, rfl, rfl⟩
  | substitution inside span =>
    obtain ⟨c', n', near, plain⟩ := near_ofLexed inside closed false false
    refine .bind (.nested (.mono (program_trails he plain (.inl near)) fun r r' u v hr =>
      .pure id ?_) fun s passed => plain s (.inl passed))
    rw [hr]
    exact ⟨rfl, rfl, rfl⟩

theorem stringParts_trails (ps : List StringPart) :
    Trails c.Passed c.Passed (ps.mapM (stringPart expression))
      ((ps.map (·.embedded e)).mapM (stringPart expression')) s t fun xs xs' u v =>
        xs' = Node.relabelParts e.relabel xs ∧ u = s ∧ v = t := by
  induction ps with
  | nil => exact .pure id ⟨rfl, rfl, rfl⟩
  | cons p ps ih =>
    rw [List.map_cons, List.mapM_cons, List.mapM_cons]
    refine .bind (.mono (stringPart_trails closed he p) ?_)
    rintro x _ _ _ ⟨rfl, rfl, rfl⟩
    refine .bind (.mono ih ?_)
    rintro xs _ _ _ ⟨rfl, rfl, rfl⟩
    refine .pure id ⟨?_, rfl, rfl⟩
    rw [Node.relabelParts_eq_map, Node.relabelParts_eq_map, List.map_cons]

theorem string_trails {span : Span} {ps : List StringPart} (h : c.Along n depth true s t) :
    Trails c.Passed c.Passed (string expression span ps)
      (string expression' (span.embedded e) (ps.map (·.embedded e))) s t (c.Gives n depth) := by
  have texts : (ps.map (·.embedded e)).map StringPart.text? = ps.map StringPart.text? := by
    rw [List.map_map]
    exact List.map_congr_left fun p _ => p.text?_embedded e
  rw [string_eq, string_eq, texts]
  split_ifs
  · exact .pure id ⟨rfl, h⟩
  · refine .bind (.mono (stringParts_trails closed he ps) ?_)
    rintro xs _ _ _ ⟨rfl, rfl, rfl⟩
    exact .pure id ⟨rfl, h⟩

omit closed in
theorem tracks_substitution : Tracks e (substitution expression) (substitution expression') := by
  intro c n depth b s t h
  refine .bind (delimiter_trails (by decide) h (fun x hx => Token.turn_open (.inr hx) depth)
    fun start u v huv => ?_)
  refine .bind (.mono (entries_trails he .parenthesis huv) ?_)
  rintro ns _ u v ⟨rfl, huv⟩
  refine .bind (close_trails huv fun _ u v huv => ?_)
  exact made_trails (huv.mono (Nat.sub_le _ 1)) fun _ => rfl

omit closed in
theorem tracks_parenthesized :
    Tracks e (parenthesized expression) (parenthesized expression') := by
  intro c n depth b s t h
  refine .bind (delimiter_trails (by decide) h (fun x hx => Token.turn_open (.inl hx) depth)
    fun start u v huv => ?_)
  have unit {u v : Stream} (huv : c.Along (n - 1) (depth + 1) true u v) {x : Token}
      (hx : u.Next x) (hd : x.isDelimiter ")") : Trails c.Lost c.Passed (do
        let _ ← advance
        return Node.literal (← spanFrom start) .unit : Parser Node) (do
        let _ ← advance
        return Node.literal (← spanFrom (start.embedded e)) .unit : Parser Node) u v
        (c.Gives (n - 1) depth) := by
    have real := Token.isDelimiter_content hd
    have turns := Token.turn_close hd depth
    refine .bind (take_trails huv hx real turns ?_)
    exact made_trails (f := fun span => .literal span .unit)
      ((huv.pop hx real turns).mono (Nat.sub_le _ 1)) fun _ => rfl
  refine .bind (.bind (meet_trails huv fun x y hx met => .pure id ?_))
  by_cases hd : x.isDelimiter ")"
  · rw [if_pos hd]
    rcases met with ⟨rfl, -⟩ | ⟨hy, ⟨-, lost⟩ | ⟨he, -⟩⟩
    · rw [if_pos (by rwa [Token.isDelimiter_embedded])]
      exact (unit huv hx hd).before fun _ => .inl
    · exact (unit huv hx hd).lost lost
    · exact absurd he (Token.isDelimiter_content hd)
  · have hd' : ¬ y.isDelimiter ")" := by
      rcases met with ⟨rfl, -⟩ | ⟨hy, -⟩
      · rwa [Token.isDelimiter_embedded]
      · exact fun hd => Token.isDelimiter_content hd hy
    rw [if_neg hd, if_neg hd']
    refine .bind (.mono (he c _ (depth + 1) true u v huv) fun x x' u v ⟨hx, huv⟩ => ?_)
    refine Trails.before (E := c.Lost) ?_ fun _ => .inl
    refine .bind (close_trails (huv.imp_right .inl) fun _ u v huv => .pure id ⟨hx, ?_⟩)
    exact huv.mono (by omega)

omit closed in
theorem block_trails (h : c.Along n depth b s t) :
    Trails c.Passed c.Passed (block expression) (block expression') s t fun r r' u v =>
      r' = (e.relabel.span r.1, Node.relabelAll e.relabel r.2) ∧ c.Along (n - 1) depth true u v := by
  refine .bind (delimiter_trails (by decide) h
    (fun x hx => Token.turn_delimiter hx (by decide) depth) fun start u v huv => ?_)
  refine .bind (.mono (entries_trails he .brace huv) ?_)
  rintro ns _ u v ⟨rfl, huv⟩
  refine .bind (delimiter_trails (by decide) huv
    (fun x hx => Token.turn_delimiter hx (by decide) depth) fun _ u v huv => ?_)
  exact .bind (spanFrom_trails huv fun span => .pure id ⟨rfl, huv.mono (Nat.sub_le _ 1)⟩)

omit closed in
theorem tracks_blockNode : Tracks e (blockNode expression) (blockNode expression') := by
  intro c n depth b s t h
  refine .bind (.mono (block_trails he h) ?_)
  rintro ⟨span, body⟩ _ u v ⟨rfl, huv⟩
  exact .pure id ⟨rfl, huv⟩

omit closed in
theorem elseBranch_trails (start : Token) (condition x : Node) (h : c.Along n depth true s t) :
    Trails c.Passed c.Passed (elseBranch expression start condition x)
      (elseBranch expression' (start.embedded e) (condition.relabel e.relabel)
        (x.relabel e.relabel)) s t (c.Gives n depth) := by
  refine .bind (atKeyword_trails h fun y hy => ?_)
  split_ifs with other
  · refine taken_trails h hy (Token.isKeyword_content other) (by simp [keyword_content other])
      fun u v huv => ?_
    refine .bind (.mono (he c _ depth true u v huv) ?_)
    rintro other _ u v ⟨rfl, huv⟩
    exact .bind (.pure id (made_trails (huv.mono (by omega)) fun _ => rfl))
  · exact .bind (.pure id (made_trails h fun _ => rfl))

omit closed in
theorem tracks_conditional : Tracks e (conditional expression) (conditional expression') := by
  intro c n depth b s t h
  refine .bind (keyword_trails h fun start u v huv => ?_)
  refine .bind (.mono (he c _ depth true u v huv) ?_)
  rintro condition _ u v ⟨rfl, huv⟩
  have huv := huv.mono (show n - 1 - 1 ≤ n - 1 by omega)
  refine .bind (atKeyword_trails huv fun x hx => ?_)
  refine .bind (atDelimiter_trails (by decide) huv fun _ _ => ?_)
  split_ifs with branch
  · refine taken_trails huv hx (Token.isKeyword_content branch) (by simp [keyword_content branch])
      fun u v huv => ?_
    refine .bind (.mono (he c _ depth true u v huv) ?_)
    rintro x _ u v ⟨rfl, huv⟩
    exact elseBranch_trails he start condition x (huv.mono (by omega))
  · refine .bind (.mono (tracks_blockNode he c _ depth true u v huv) ?_)
    rintro x _ u v ⟨rfl, huv⟩
    exact elseBranch_trails he start condition x (huv.mono (by omega))
  · exact .bind (Trails.unexpected (F := c.Passed))

omit closed he in
theorem parameter_trails (h : c.Along n depth b s t) :
    Trails c.Passed c.Passed parameter parameter s t fun p p' u v =>
      p' = p.relabel e.relabel ∧ c.Along (n - 1) depth true u v := by
  refine .bind (peek_trails h fun x y hx beside => ?_)
  obtain ⟨content, lexeme, place⟩ := x
  cases content with
  | «variable» name =>
    obtain rfl := beside.inner (Token.isInner_of_content nofun nofun)
    refine taken_trails h hx nofun nofun fun u v huv => ?_
    refine .bind (.mono (declaredType_trails huv) ?_)
    rintro declared _ u v ⟨rfl, huv⟩
    exact .bind (spanFrom_trails huv fun span => .pure id ⟨rfl, huv⟩)
  | _ => exact .unexpected

omit closed in
theorem functionBody_trails (start : Token) (name : Option String) (params : List Param)
    (returns : Option Ty) (h : c.Along n depth true s t) :
    Trails c.Passed c.Passed (functionBody expression start name params returns)
      (functionBody expression' (start.embedded e) name (params.map (·.relabel e.relabel)) returns)
      s t (c.Gives n depth) := by
  refine .bind (atDelimiter_trails (by decide) h fun _ _ => ?_)
  split_ifs
  · refine .bind (.mono (block_trails he h) ?_)
    rintro ⟨_, body⟩ _ u v ⟨rfl, huv⟩
    exact made_trails (huv.mono (Nat.sub_le _ 1)) fun _ => rfl
  · exact .unexpected

omit closed in
theorem functionFrom_trails (start : Token) (name : Option String) (h : c.Along n depth true s t) :
    Trails c.Passed c.Passed (functionFrom expression start name)
      (functionFrom expression' (start.embedded e) name) s t (c.Gives n depth) := by
  refine .bind (delimiter_trails (by decide) h
    (fun x hx => Token.turn_open (.inl hx) depth) fun _ u v huv => ?_)
  refine listed_trails (fun m _ b s t => parameter_trails) (fun params u v huv => ?_) huv
  refine .bind (close_trails huv fun _ u v huv => ?_)
  have huv := huv.mono (show n - 1 - 1 ≤ n by omega)
  refine .bind (atOperator_trails huv fun x hx => ?_)
  split_ifs with arrow
  · refine taken_trails huv hx (Token.isOperator_content arrow) (by simp [operator_content arrow])
      fun u v huv => ?_
    refine .bind (.mono (type_trails huv) ?_)
    rintro ty _ u v ⟨rfl, huv⟩
    refine .bind (.pure id ?_)
    exact functionBody_trails he start name params (some _) (huv.mono (by omega))
  · exact .bind (.pure id (functionBody_trails he start name params none huv))

omit closed in
theorem tracks_function : Tracks e (function expression) (function expression') := by
  intro c n depth b s t h
  rw [function_eq, function_eq]
  refine .bind (keyword_trails h fun start u v huv => ?_)
  refine .bind (peek_trails huv fun x y hx beside => ?_)
  rw [beside.isPlainWord]
  split_ifs with word
  · have plain := Token.isPlainWord_content word
    refine taken_trails huv hx (by simp [plain]) (by simp [plain]) fun u v huv => ?_
    exact .bind (.pure id (functionFrom_trails he start _ (huv.mono (Nat.sub_le _ 1))))
  · exact .bind (.pure id (functionFrom_trails he start none huv))

omit closed in
theorem tracks_return : Tracks e (return_ expression) (return_ expression') := by
  intro c n depth b s t h
  refine .bind (keyword_trails h fun start u v huv => ?_)
  refine .bind (peek_trails huv fun x y _ beside => ?_)
  dsimp only
  rw [beside.startsExpression]
  split_ifs
  · refine .bind (.mono (he c _ depth true u v huv) ?_)
    rintro x _ u v ⟨rfl, huv⟩
    exact .bind (.pure id (made_trails (huv.mono (Nat.sub_le _ 1)) fun _ => rfl))
  · exact .bind (.pure id (made_trails huv fun _ => rfl))

omit closed in
theorem tracks_define : Tracks e (define expression) (define expression') := by
  intro c n depth b s t h
  refine .bind (keyword_trails h fun start u v huv => ?_)
  refine .bind (peek_trails huv fun x y hx beside => ?_)
  obtain ⟨content, lexeme, place⟩ := x
  cases content with
  | «variable» name =>
    obtain rfl := beside.inner (Token.isInner_of_content nofun nofun)
    refine taken_trails huv hx nofun nofun fun u v huv => ?_
    refine .bind (.mono (declaredType_trails huv) ?_)
    rintro declared _ u v ⟨rfl, huv⟩
    refine .bind (operator_trails huv fun _ u v huv => ?_)
    refine .bind (.mono (he c _ depth true u v huv) ?_)
    rintro value _ u v ⟨rfl, huv⟩
    exact made_trails (huv.mono (by omega)) fun _ => rfl
  | _ => exact .unexpected

theorem tracks_primary : Tracks e (primary expression) (primary expression') := by
  intro c n depth b s t h
  refine .bind (peek_trails h fun x y hx beside => ?_)
  dsimp only
  rcases beside.cases with rfl | ⟨ends, hy⟩
  · obtain ⟨content, lexeme, place⟩ := x
    cases content with
    | integer n => exact taken_trails h hx nofun nofun fun u v huv => .pure id ⟨rfl, huv⟩
    | float x => exact taken_trails h hx nofun nofun fun u v huv => .pure id ⟨rfl, huv⟩
    | string parts =>
      exact taken_trails h hx nofun nofun fun u v huv => string_trails closed he huv
    | «variable» name => exact taken_trails h hx nofun nofun fun u v huv => .pure id ⟨rfl, huv⟩
    | defaulted name default =>
      exact taken_trails h hx nofun nofun fun u v huv => .pure id ⟨rfl, huv⟩
    | delimiter =>
      refine .ite Iff.rfl (fun _ => tracks_parenthesized he c n depth b s t h) fun _ => ?_
      refine .ite Iff.rfl (fun _ => tracks_substitution he c n depth b s t h) fun _ => ?_
      exact .ite Iff.rfl (fun _ => tracks_blockNode he c n depth b s t h) fun _ => .unexpected
    | word =>
      refine .ite Iff.rfl (fun _ => taken_trails h hx nofun nofun fun u v huv =>
        .pure id ⟨rfl, huv⟩) fun _ => ?_
      refine .ite Iff.rfl (fun _ => tracks_conditional he c n depth b s t h) fun _ => ?_
      refine .ite Iff.rfl (fun _ => tracks_function he c n depth b s t h) fun _ => ?_
      refine .ite Iff.rfl (fun _ => tracks_return he c n depth b s t h) fun _ => ?_
      exact .ite Iff.rfl (fun _ => tracks_define he c n depth b s t h) fun _ => .unexpected
    | operator => exact .unexpected
    | endOfInput => exact .unexpected
  · -- nothing starts with a closing parenthesis or the end of the text
    rcases ends with ended | ⟨mark, lexeme⟩
    · rw [ended]
      exact .unexpected
    · rw [mark, lexeme]
      exact .unexpected

/-! ## Commands and calls -/

theorem tracks_argument : Tracks e (argument expression) (argument expression') := by
  intro c n depth b s t h
  refine .bind (peek_trails h fun x y hx beside => ?_)
  rw [beside.isPlainWord, beside.isDelimiter (by decide)]
  split_ifs with word
  · have plain := Token.isPlainWord_content word
    obtain rfl := beside.inner (Token.isInner_of_content (by simp [plain]) (by simp [plain]))
    exact taken_trails h hx (by simp [plain]) (by simp [plain]) fun u v huv => .pure id ⟨rfl, huv⟩
  · exact tracks_parenthesized he c n depth b s t h
  · exact tracks_primary closed he c n depth b s t h

omit closed he in
theorem adjacent_embedded (x y : Token) :
    adjacent (x.embedded e) (y.embedded e) = adjacent x y := by
  simp [adjacent, Token.embedded, Span.embedded, Position.embedded]

omit closed he in
theorem atBinding_trails {Q : Bool → Bool → Stream → Stream → Prop} (h : c.Along n depth b s t)
    (hQ : ∀ bound : Bool, (bound → ∃ key eq, s.Next key ∧ key.isPlainWord ∧
      s.peek 1 = .ok eq ∧ eq.isOperator "=") → Q bound bound s t) :
    Trails c.Passed c.Passed atBinding atBinding s t Q := by
  refine .bind (peek_trails h fun key key' hkey beside => ?_)
  by_cases word : key.isPlainWord
  · have plain := Token.isPlainWord_content word
    have inner := Token.isInner_of_content (t := key) (by simp [plain]) (by simp [plain])
    obtain rfl := beside.inner inner
    refine .ite (by rw [Token.isPlainWord_embedded]; rfl) (fun _ => ?_)
      fun _ => .pure id (hQ _ nofun)
    have first : ∀ j < 1, ∃ x, s.peek j = .ok x ∧ x.isInner := by
      intro j hj
      obtain rfl : j = 0 := by omega
      exact ⟨key, hkey, inner⟩
    refine .bind (peekAt_trails h first fun eq eq' heq beside => ?_)
    by_cases assign : eq.isOperator "="
    · have plain' := operator_content assign
      have inner' := Token.isInner_of_content (t := eq) (by simp [plain']) (by simp [plain'])
      obtain rfl := beside.inner inner'
      refine .ite (by rw [Token.isOperator_embedded, adjacent_embedded]) (fun _ => ?_)
        fun _ => .pure id (hQ _ nofun)
      have second : ∀ j < 2, ∃ x, s.peek j = .ok x ∧ x.isInner := by
        intro j hj
        obtain rfl | rfl : j = 0 ∨ j = 1 := by omega
        · exact ⟨key, hkey, inner⟩
        · exact ⟨eq, heq, inner'⟩
      refine .bind (peekAt_trails h second fun value value' _ beside => .pure id ?_)
      have same : (adjacent (eq.embedded e) value' && startsArgument value') =
          (adjacent eq value && startsArgument value) := by
        rcases beside.cases with rfl | ⟨-, spent⟩
        · rw [adjacent_embedded, Token.Beside.startsArgument (.inl rfl)]
        · have no : startsArgument value' = false := by
            simp [startsArgument, isAtom, Token.isPlainWord, Token.isKeyword, Token.isDelimiter,
              spent]
          rw [← beside.startsArgument, no, Bool.and_false, Bool.and_false]
      rw [same]
      exact hQ _ fun _ => ⟨key, eq, hkey, word, heq, assign⟩
    · have no : ¬ eq'.isOperator "=" := by rwa [beside.isOperator]
      rw [if_neg (by simp [assign]), if_neg (by simp [no])]
      exact .pure id (hQ _ nofun)
  · have no : ¬ key'.isPlainWord := by rwa [beside.isPlainWord]
    rw [if_neg (by simp [word]), if_neg (by simp [no])]
    exact .pure id (hQ _ nofun)

omit closed in
theorem callArguments_trails (h : c.Along n depth b s t) :
    Trails c.Passed c.Passed (callArguments expression) (callArguments expression') s t
      fun ns ns' u v => ns' = Node.relabelAll e.relabel ns ∧ c.Along (n - 1) depth true u v := by
  refine .bind (delimiter_trails (by decide) h (fun x hx => Token.turn_open (.inl hx) depth)
    fun _ u v huv => ?_)
  refine listed_trails (g := Node.relabel e.relabel) (fun m _ b s t h => he c m _ b s t h)
    (fun ns u v huv => ?_) huv
  refine .bind (close_trails huv fun _ u v huv => .pure id ⟨?_, huv.mono (Nat.sub_le _ 1)⟩)
  rw [Node.relabelAll_eq_map]

theorem binding_trails (h : c.Along n depth b s t) {key eq : Token} (hkey : s.Next key)
    (word : key.isPlainWord) (heq : s.peek 1 = .ok eq) (assign : eq.isOperator "=") :
    Trails c.Passed c.Passed (binding expression) (binding expression') s t fun x x' u v =>
      x' = Node.relabelBinding e.relabel x ∧ c.Along (n - 1) depth true u v := by
  have plain := Token.isPlainWord_content word
  have real : key.content ≠ .endOfInput := by simp [plain]
  have turns := Token.turn_of_content (by simp [plain] : key.content ≠ .delimiter) depth
  refine .bind (pop_trails h hkey real turns ?_)
  refine taken_trails (h.pop hkey real turns) (h.second hkey real heq)
    (Token.isOperator_content assign) (by simp [operator_content assign]) fun u v huv => ?_
  refine .bind (.mono (tracks_argument closed he c _ depth true u v huv) ?_)
  rintro value _ u v ⟨rfl, huv⟩
  exact .bind (spanFrom_trails huv fun span => .pure id ⟨rfl, huv.mono (by omega)⟩)

theorem arguments_trails (h : c.Along n depth b s t) :
    Trails c.Passed c.Passed (arguments expression) (arguments expression') s t
      fun ns ns' u v => ns' = Node.relabelAll e.relabel ns ∧ c.Along n depth b u v := by
  refine .mono (many_trails (g := Node.relabel e.relabel) h fun m _ u v huv => ?_)
    fun ns ns' u v ⟨hns, huv⟩ => ⟨hns.trans (Node.relabelAll_eq_map _ _).symm, huv⟩
  refine .bind (peek_trails huv fun x y _ beside => ?_)
  rw [beside.startsArgument]
  refine .ite Iff.rfl (fun _ => ?_) fun _ => .pure id huv
  refine .bind (.mono (tracks_argument closed he c m depth b u v huv) ?_)
  rintro arg _ u v ⟨rfl, huv⟩
  exact .pure id ⟨rfl, huv.later b⟩

theorem named_trails (start name : Token) (env : List EnvBinding)
    (h : c.Along n depth true s t) :
    Trails c.Passed c.Passed (named expression start name env)
      (named expression' (start.embedded e) (name.embedded e) (Node.relabelBindings e.relabel env))
      s t (c.Gives n depth) := by
  refine .bind (peek_trails h fun next next' _ beside => ?_)
  have same : (next'.isDelimiter "(" && adjacent (name.embedded e) next') =
      (next.isDelimiter "(" && adjacent name next) := by
    rw [beside.isDelimiter (by decide)]
    by_cases opens : next.isDelimiter "("
    · obtain rfl := beside.inner (Token.isInner_delimiter opens (by decide))
      rw [adjacent_embedded]
    · rw [Bool.not_eq_true] at opens
      rw [opens, Bool.false_and, Bool.false_and]
  rw [same]
  refine .ite Iff.rfl (fun _ => ?_) fun _ => ?_
  · refine .bind (.mono (callArguments_trails he h) ?_)
    rintro args _ u v ⟨rfl, huv⟩
    exact made_trails (huv.mono (Nat.sub_le _ 1)) fun _ => rfl
  · refine .bind (.mono (arguments_trails closed he h) ?_)
    rintro args _ u v ⟨rfl, huv⟩
    exact made_trails huv fun _ => rfl

theorem prefixes_trails (h : c.Along n depth b s t) :
    Trails c.Passed c.Passed (prefixes expression) (prefixes expression') s t fun bs bs' u v =>
      bs' = Node.relabelBindings e.relabel bs ∧ c.Along n depth b u v ∧ (bs = [] → u = s) := by
  refine iterate_trails (R := fun m bs bs' u v =>
    bs' = Node.relabelBindings e.relabel bs ∧ c.Along (min m n) depth b u v ∧ (bs = [] → u = s))
    (fun bs bs' u v huv => ?_) (fun m bs bs' u v huv => ?_) ⟨rfl, h.rebound, fun _ => rfl⟩
  · rw [Nat.zero_min] at huv
    exact huv.2.1.passed
  · obtain ⟨hbs, huv, first⟩ := huv
    refine Trails.bind (F := c.Passed) (.bind (atBinding_trails huv fun bound hbound => ?_))
    refine .ite Iff.rfl (fun yes => ?_)
      fun _ => .pure id (.pure id ⟨hbs, huv.mono (Nat.min_le_right m n), first⟩)
    obtain ⟨key, eq, hkey, plain, heq, assign⟩ := hbound yes
    refine .bind (.mono (binding_trails closed he huv hkey plain heq assign) ?_)
    rintro x _ u v ⟨rfl, huv'⟩
    refine .pure id (.pure id ⟨?_, (huv'.later b).mono (by omega), fun e => by simp at e⟩)
    rw [hbs, Node.relabelBindings_eq_map, Node.relabelBindings_eq_map, List.map_append]
    rfl

theorem command_trails {start : Token} (h : c.Along n depth b s t) (hstart : s.Next start)
    (word : start.isPlainWord) :
    Trails c.Passed c.Passed (command expression start) (command expression' (start.embedded e))
      s t (c.Gives (n - 1) depth) := by
  refine .bind (.mono (prefixes_trails closed he h) ?_)
  rintro env _ u v ⟨rfl, huv, first⟩
  refine .bind (peek_trails huv fun x y hx beside => ?_)
  rw [Node.isEmpty_relabelBindings, beside.isPlainWord]
  refine .ite Iff.rfl (fun called => ?_) fun _ => .throw
  have plain := Token.isPlainWord_content (isPlainWord_name hstart word first hx called)
  exact taken_trails huv hx (by simp [plain]) (by simp [plain]) fun u v huv =>
    named_trails closed he start x env huv

theorem tracks_application : Tracks e (application expression) (application expression') := by
  intro c n depth b s t h
  rw [application_eq, application_eq]
  refine .bind (peek_trails h fun start start' hstart beside => ?_)
  by_cases word : start.isPlainWord
  · have plain := Token.isPlainWord_content word
    obtain rfl := beside.inner (Token.isInner_of_content (by simp [plain]) (by simp [plain]))
    rw [if_pos word, if_pos (by rwa [Token.isPlainWord_embedded])]
    exact command_trails closed he h hstart word
  · rw [if_neg word, if_neg (by rwa [beside.isPlainWord])]
    exact tracks_primary closed he c n depth b s t h

omit closed he in
/-- An expression is looked at before it is read. Where the second reader sees the end of its text,
the first has nothing to read of the text and is lost afterwards. -/
theorem start_trails {α β : Type} {p q : Parser Node} {f : Token → Node → Parser α}
    {g : Token → Node → Parser β} {Q : α → β → Stream → Stream → Prop} (hp : Tracks e p q)
    (h : c.Along n depth b s t)
    (hQ : ∀ x a a' u v, c.Gives (n - 1) depth a a' u v →
      Trails c.Passed c.Passed (f x a) (g (x.embedded e) a') u v Q) :
    Trails c.Passed c.Passed (peek 0 >>= fun x => p >>= f x) (peek 0 >>= fun x => q >>= g x)
      s t Q := by
  refine .bind (last_trails h fun x y hx seen => ?_)
  have along : Trails c.Passed c.Passed p q s t fun a a' u v =>
      Trails c.Passed c.Passed (f x a) (g (x.embedded e) a') u v Q :=
    .mono (hp c n depth b s t h) (hQ x)
  rcases seen with rfl | last
  · exact .bind along
  · refine Trails.bind (F := c.Passed) fun a u ha => ?_
    obtain ⟨stays, a', v, hf, -⟩ := along a u ha
    obtain ⟨-, a₁, v₁, gives, -⟩ := hp c 2 depth b s t (.inl last.1) a u ha
    have passed : c.Passed u := gives.2.resolve_left (last.2 depth true u v₁)
    exact ⟨fun _ => passed, a', v, hf.lost passed, .inr passed⟩

theorem tracks_postfixCalls : Tracks e (postfixCalls expression) (postfixCalls expression') := by
  intro c n depth b s t h
  refine start_trails (tracks_application closed he) h fun start x x' u v hx => ?_
  refine iterate_trails (R := fun m => c.Gives (min m (n - 1)) depth)
    (fun callee callee' u v hc => ?_) (fun m callee callee' u v hc => ?_) ⟨hx.1, hx.2.rebound⟩
  · have hc := hc.2
    rw [Nat.zero_min] at hc
    exact hc.passed
  · obtain ⟨rfl, huv⟩ := hc
    refine .bind (atDelimiter_trails (by decide) huv fun _ _ => ?_)
    refine .ite Iff.rfl (fun _ => ?_)
      fun _ => .pure id ⟨rfl, huv.mono (Nat.min_le_right m (n - 1))⟩
    refine .bind (.mono (callArguments_trails he huv) ?_)
    rintro args _ u v ⟨rfl, huv⟩
    exact .bind (spanFrom_trails huv fun span => .pure id ⟨rfl, huv.mono (by omega)⟩)

/-! ## Operators -/

theorem tracks_signed : Tracks e (signed expression) (signed expression') := by
  intro c n depth b s t h
  refine .bind (.mono (many_trails (g := Token.embedded e) h fun m _ u v huv => ?_) ?_)
  · refine .bind (atOperator_trails huv fun x hx => ?_)
    refine .bind (atOperator_trails huv fun y hy => ?_)
    cases hx.symm.trans hy
    refine .ite Iff.rfl (fun sign => ?_) fun _ => .pure id huv
    rw [Bool.or_eq_true] at sign
    have plain := sign.elim operator_content operator_content
    exact taken_trails huv hx (by simp [plain]) (by simp [plain])
      fun u v huv => .pure id ⟨rfl, huv.later b⟩
  · rintro signs _ u v ⟨rfl, huv⟩
    refine .bind (.mono (tracks_postfixCalls closed he c n depth b u v huv) fun x x' u v hx => ?_)
    induction signs with
    | nil => exact .pure id hx
    | cons sign signs ih =>
      rw [List.map_cons, List.foldrM_cons, List.foldrM_cons]
      refine .bind (.mono ih ?_)
      rintro operand _ u v ⟨rfl, huv⟩
      exact made_trails huv fun _ => rfl

end

theorem atOneOf_trails {ops : List BinaryOperator} {Q : Bool → Bool → Stream → Stream → Prop}
    (h : c.Along n depth b s t)
    (hQ : ∀ (x : Token) (found : Bool), s.Next x → (found → x.content = .operator) →
      Q found found s t) : Trails c.Passed c.Passed (atOneOf ops) (atOneOf ops) s t Q := by
  refine .bind (peek_trails h fun x y hx beside => .pure id ?_)
  simp only [beside.isOperator]
  refine hQ x _ hx fun found => ?_
  obtain ⟨op, -, isOp⟩ := List.any_eq_true.mp found
  exact operator_content isOp

section

variable {operand operand' : Parser Node} (he : Tracks e operand operand')
include he

theorem tracks_chain (ops : List BinaryOperator) :
    Tracks e (chain ops operand) (chain ops operand') := by
  intro c n depth b s t h
  refine start_trails he h fun start x x' u v hx => ?_
  refine iterate_trails (R := fun m => c.Gives (min m (n - 1)) depth)
    (fun left left' u v hl => ?_) (fun m left left' u v hl => ?_) ⟨hx.1, hx.2.rebound⟩
  · have hl := hl.2
    rw [Nat.zero_min] at hl
    exact hl.passed
  · obtain ⟨rfl, huv⟩ := hl
    refine .bind (atOneOf_trails huv fun x found hx hfound => ?_)
    refine .ite Iff.rfl (fun yes => ?_)
      fun _ => .pure id ⟨rfl, huv.mono (Nat.min_le_right m (n - 1))⟩
    refine taken_trails huv hx (by simp [hfound yes]) (by simp [hfound yes]) fun u v huv => ?_
    refine .bind (.mono (he c _ depth true u v huv) ?_)
    rintro right _ u v ⟨rfl, huv⟩
    exact .bind (spanFrom_trails huv fun span => .pure id ⟨rfl, huv.mono (by omega)⟩)

theorem tracks_comparison : Tracks e (comparison operand) (comparison operand') := by
  intro c n depth b s t h
  refine start_trails he h fun start left left' u v hl => ?_
  obtain ⟨rfl, huv⟩ := hl
  refine .bind (atOneOf_trails huv fun x found hx hfound => ?_)
  refine .ite Iff.rfl (fun yes => ?_) fun _ => .pure id ⟨rfl, huv⟩
  refine taken_trails huv hx (by simp [hfound yes]) (by simp [hfound yes]) fun u v huv => ?_
  refine .bind (.mono (he c _ depth true u v huv) ?_)
  rintro right _ u v ⟨rfl, huv⟩
  refine .bind (spanFrom_trails huv fun span => ?_)
  refine .bind (atOneOf_trails huv fun _ _ _ _ => ?_)
  refine .ite Iff.rfl (fun _ => .bind (peek_trails huv fun _ _ _ _ => .throw)) fun _ => ?_
  exact .pure id ⟨rfl, huv.mono (by omega)⟩

theorem tracks_operation : Tracks e (operation operand) (operation operand') :=
  tracks_chain (tracks_chain (tracks_comparison (tracks_chain (tracks_chain he _) _)) _) _

end

/-! ## Expressions -/

section

variable (closed : ∀ ch ∈ e.more.head?, Lexer.isNameChar ch = false)
include closed

theorem tracks_expressionWith (he : Tracks e expression expression') :
    Tracks e (expressionWith expression) (expressionWith expression') := by
  intro c n depth b s t h
  have operations := tracks_operation (tracks_signed closed he) c n depth b s t h
  refine .bind (peek_trails h fun x y hx beside => ?_)
  refine .ite (by rw [beside.isKeyword]) (fun _ => tracks_define he c n depth b s t h) fun _ => ?_
  rcases beside.cases with rfl | ⟨ends, spent⟩
  · obtain ⟨content, lexeme, place⟩ := x
    cases content with
    | «variable» name =>
      have first : ∀ j < 1, ∃ x, s.peek j = .ok x ∧ x.isInner := by
        intro j hj
        obtain rfl : j = 0 := by omega
        exact ⟨_, hx, Token.isInner_of_content nofun nofun⟩
      refine .bind (peekAt_trails h first fun eq eq' heq beside => ?_)
      refine .ite (by rw [beside.isOperator]) (fun assign => ?_) fun _ => operations
      have turns := Token.turn_of_content (t := ⟨.variable name, lexeme, place⟩) nofun depth
      refine .bind (pop_trails h hx nofun turns ?_)
      refine taken_trails (h.pop hx nofun turns) (h.second hx nofun heq)
        (Token.isOperator_content assign) (by simp [operator_content assign]) fun u v huv => ?_
      refine .bind (.mono (he c _ depth true u v huv) ?_)
      rintro value _ u v ⟨rfl, huv⟩
      exact made_trails (huv.mono (by omega)) fun _ => rfl
    | _ => exact operations
  · rw [spent]
    rcases ends with ended | ⟨mark, -⟩
    · rw [ended]
      exact operations
    · rw [mark]
      exact operations

/-- Expressions are read in the longer text as in parentheses, with a bound on the depth that is no
smaller. -/
theorem tracks_expressionUpTo {j k : Nat} (h : j ≤ k) :
    Tracks e (expressionUpTo j) (expressionUpTo k) := by
  induction j generalizing k with
  | zero => exact fun _ _ _ _ _ _ _ => .throw
  | succ j ih =>
    obtain ⟨k, rfl⟩ : ∃ l, k = l + 1 := ⟨k - 1, by omega⟩
    exact tracks_expressionWith closed (ih (Nat.le_of_succ_le_succ h))

end

end Parser

end Sigil
