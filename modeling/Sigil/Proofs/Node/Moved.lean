import Sigil.Proofs.Node.Mirrored

/-!
# Expressions within a longer text

The pieces of the grammar are taken one by one, given what is known of the
readers of the expressions within them: what the first reads, the second reads
in the longer text (`Parser.mirrors_expressionUpTo`). The last token that is
read of an expression may be the last of the text, so that every piece has to
see the same in the semicolon behind it as in the end of the text.
-/

namespace Sigil

/-- The text that a part of a string is, if it is one. -/
def StringPart.text? : StringPart → Option String
  | .text s => some s
  | _ => none

theorem StringPart.text?_moved (m : Placement) (p : StringPart) : (p.moved m).text? = p.text? := by
  cases p <;> rfl

namespace Parser

section

variable {m : Placement} {limit : Nat} {c : Seam} {b : Bool} {s t : Stream}
  {expression expression' : Parser Node}

/-! ## Primary expressions -/

/-- A node with the span of what was read for it. -/
theorem made_follows {start : Token} {f f' : Option Span → Node} (h : s.Twin m limit c true t)
    (hf : ∀ span, (f span).span = span)
    (hr : ∀ span, f' (m.relabel.span span) = (f span).relabel m.relabel) :
    Follows (do return f (← spanFrom start)) (do return f' (← spanFrom (start.moved m))) s t
      (Mirrored m limit c) := by
  refine .bind (spanFrom_follows h fun span near => .pure ⟨hr (some span), fun sp hsp => ?_, h⟩)
  cases (hf (some span)).symm.trans hsp
  exact near

theorem string_eq (span : Span) (ps : List StringPart) :
    string expression span ps = (if (ps.map StringPart.text?).all Option.isSome then
      return .literal (some span) (.text (String.join ((ps.map StringPart.text?).filterMap id)))
    else return .interpolation (some span) (← ps.mapM (stringPart expression))) :=
  rfl

section

variable (he : Mirrors m expression expression') (stalls : Stalls expression)
include he stalls

theorem stringPart_follows (p : StringPart) :
    Follows (stringPart expression p) (stringPart expression' (p.moved m)) s t fun x x' u v =>
      x' = Node.relabelPart m.relabel x ∧ u = s ∧ v = t := by
  cases p with
  | text s => exact .pure ⟨rfl, rfl, rfl⟩
  | «variable» name default span => exact .pure ⟨rfl, rfl, rfl⟩
  | substitution inside span =>
    obtain ⟨c, twin, ends⟩ := twin_beyond m inside false false
    refine .bind (.nested (.mono (program_follows he stalls ends twin) fun r r' u v hr => .pure ?_))
    rw [hr]
    exact ⟨rfl, rfl, rfl⟩

theorem stringParts_follows (ps : List StringPart) :
    Follows (ps.mapM (stringPart expression)) ((ps.map (·.moved m)).mapM (stringPart expression'))
      s t fun xs xs' u v => xs' = Node.relabelParts m.relabel xs ∧ u = s ∧ v = t := by
  induction ps with
  | nil => exact .pure ⟨rfl, rfl, rfl⟩
  | cons p ps ih =>
    rw [List.map_cons, List.mapM_cons, List.mapM_cons]
    refine .bind (.mono (stringPart_follows he stalls p) ?_)
    rintro x _ _ _ ⟨rfl, rfl, rfl⟩
    refine .bind (.mono ih ?_)
    rintro xs _ _ _ ⟨rfl, rfl, rfl⟩
    refine .pure ⟨?_, rfl, rfl⟩
    rw [Node.relabelParts_eq_map, Node.relabelParts_eq_map, List.map_cons]

theorem string_follows {span : Span} {ps : List StringPart} (near : span.stop.offset ≤ limit)
    (h : s.Twin m limit c true t) :
    Follows (string expression span ps) (string expression' (span.moved m) (ps.map (·.moved m)))
      s t (Mirrored m limit c) := by
  have texts : (ps.map (·.moved m)).map StringPart.text? = ps.map StringPart.text? := by
    rw [List.map_map]
    exact List.map_congr_left fun p _ => p.text?_moved m
  rw [string_eq, string_eq, texts]
  split_ifs
  · exact .pure ⟨rfl, fun _ e => by cases e; exact near, h⟩
  · refine .bind (.mono (stringParts_follows he stalls ps) ?_)
    rintro xs _ _ _ ⟨rfl, rfl, rfl⟩
    exact .pure ⟨rfl, fun _ e => by cases e; exact near, h⟩

theorem substitution_follows (h : s.Twin m limit c b t) :
    Follows (substitution expression) (substitution expression') s t (Mirrored m limit c) := by
  refine .bind (delimiter_follows (by decide) h fun start u v huv => ?_)
  refine .bind (.mono (entries_follows he stalls (by decide) nofun huv) ?_)
  rintro ns _ u v ⟨rfl, huv⟩
  refine .bind (delimiter_follows (by decide) huv fun _ u v huv => ?_)
  exact made_follows huv (fun _ => rfl) fun _ => rfl

omit stalls in
theorem parenthesized_follows (h : s.Twin m limit c b t) :
    Follows (parenthesized expression) (parenthesized expression') s t (Mirrored m limit c) := by
  refine .bind (delimiter_follows (by decide) h fun start u v huv => ?_)
  refine .bind (atDelimiter_follows (by decide) huv fun x hx => ?_)
  split_ifs with closed
  · refine .bind (advance_follows huv hx (Token.isDelimiter_content closed) fun u v huv => ?_)
    exact made_follows (f := fun span => .literal span .unit) huv (fun _ => rfl) fun _ => rfl
  · refine .bind (.mono (he limit c true u v huv) fun n n' u v ⟨hn, near, huv⟩ => ?_)
    exact .bind (delimiter_follows (by decide) huv fun _ u v huv => .pure ⟨hn, near, huv⟩)

theorem block_follows (h : s.Twin m limit c b t) :
    Follows (block expression) (block expression') s t fun r r' u v =>
      (∃ span, r.1 = some span ∧ span.stop.offset ≤ limit) ∧
        r' = (m.relabel.span r.1, Node.relabelAll m.relabel r.2) ∧ u.Twin m limit c true v := by
  refine .bind (delimiter_follows (by decide) h fun start u v huv => ?_)
  refine .bind (.mono (entries_follows he stalls (by decide) nofun huv) ?_)
  rintro ns _ u v ⟨rfl, huv⟩
  refine .bind (delimiter_follows (by decide) huv fun _ u v huv => ?_)
  exact .bind (spanFrom_follows huv fun span near => .pure ⟨⟨span, rfl, near⟩, rfl, huv⟩)

theorem blockNode_follows (h : s.Twin m limit c b t) :
    Follows (blockNode expression) (blockNode expression') s t (Mirrored m limit c) := by
  refine .bind (.mono (block_follows he stalls h) ?_)
  rintro ⟨_, body⟩ _ u v ⟨⟨span, rfl, near⟩, rfl, huv⟩
  exact .pure ⟨rfl, fun _ e => by cases e; exact near, huv⟩

omit stalls in
theorem elseBranch_follows (start : Token) (condition n : Node) (h : s.Twin m limit c true t) :
    Follows (elseBranch expression start condition n)
      (elseBranch expression' (start.moved m) (condition.relabel m.relabel) (n.relabel m.relabel))
      s t (Mirrored m limit c) := by
  refine .bind (atKeyword_follows h fun x hx => ?_)
  split_ifs with other
  · refine .bind (advance_follows h hx (Token.isKeyword_content other) fun u v huv => ?_)
    refine .bind (.mono (he limit c true u v huv) ?_)
    rintro other _ u v ⟨rfl, -, huv⟩
    exact .bind (.pure (made_follows huv (fun _ => rfl) fun _ => rfl))
  · exact .bind (.pure (made_follows h (fun _ => rfl) fun _ => rfl))

theorem conditional_follows (h : s.Twin m limit c b t) :
    Follows (conditional expression) (conditional expression') s t (Mirrored m limit c) := by
  refine .bind (keyword_follows h fun start u v huv => ?_)
  refine .bind (.mono (he limit c true u v huv) ?_)
  rintro condition _ u v ⟨rfl, -, huv⟩
  refine .bind (atKeyword_follows huv fun x hx => ?_)
  refine .bind (atDelimiter_follows (by decide) huv fun _ _ => ?_)
  split_ifs with branch
  · refine .bind (advance_follows huv hx (Token.isKeyword_content branch) fun u v huv => ?_)
    refine .bind (.mono (he limit c true u v huv) ?_)
    rintro n _ u v ⟨rfl, -, huv⟩
    exact elseBranch_follows he start condition n huv
  · refine .bind (.mono (blockNode_follows he stalls huv) ?_)
    rintro n _ u v ⟨rfl, -, huv⟩
    exact elseBranch_follows he start condition n huv
  · exact .bind .unexpected

omit he stalls in
theorem parameter_follows (h : s.Twin m limit c b t) :
    Follows parameter parameter s t fun p p' u v =>
      p' = p.relabel m.relabel ∧ u.Twin m limit c true v := by
  refine .bind (peek_follows h fun x y hx hy alike => ?_)
  by_cases spent : x.content = .endOfInput
  · rw [spent]
    exact .unexpected
  · obtain ⟨rfl, -⟩ := alike.real spent
    obtain ⟨content, lexeme, place⟩ := x
    cases content with
    | «variable» name =>
      refine .bind (advance_follows h hx spent fun u v huv => ?_)
      refine .bind (.mono (declaredType_follows huv) ?_)
      rintro declared _ u v ⟨rfl, huv⟩
      exact .bind (spanFrom_follows huv fun span _ => .pure ⟨rfl, huv⟩)
    | _ => exact .unexpected

theorem functionBody_follows (start : Token) (name : Option String) (params : List Param)
    (returns : Option Ty) (h : s.Twin m limit c true t) :
    Follows (functionBody expression start name params returns)
      (functionBody expression' (start.moved m) name (params.map (·.relabel m.relabel)) returns)
      s t (Mirrored m limit c) := by
  refine .bind (atDelimiter_follows (by decide) h fun _ _ => ?_)
  split_ifs
  · refine .bind (.mono (block_follows he stalls h) ?_)
    rintro ⟨_, body⟩ _ u v ⟨-, rfl, huv⟩
    exact made_follows huv (fun _ => rfl) fun _ => rfl
  · exact .unexpected

theorem functionFrom_follows (start : Token) (name : Option String) (h : s.Twin m limit c true t) :
    Follows (functionFrom expression start name) (functionFrom expression' (start.moved m) name)
      s t (Mirrored m limit c) := by
  refine .bind (delimiter_follows (by decide) h fun _ u v huv => ?_)
  refine listed_follows (fun b s t => parameter_follows) (fun params u v huv => ?_) huv
  refine .bind (delimiter_follows (by decide) huv fun _ u v huv => ?_)
  refine .bind (atOperator_follows huv fun x hx => ?_)
  split_ifs with arrow
  · refine .bind (advance_follows huv hx (Token.isOperator_content arrow) fun u v huv => ?_)
    refine .bind (.mono (type_follows huv) ?_)
    rintro _ ty u v ⟨rfl, huv⟩
    exact .bind (.pure (functionBody_follows he stalls start name params (some ty) huv))
  · exact .bind (.pure (functionBody_follows he stalls start name params none huv))

theorem function_follows (h : s.Twin m limit c b t) :
    Follows (function expression) (function expression') s t (Mirrored m limit c) := by
  rw [function_eq, function_eq]
  refine .bind (keyword_follows h fun start u v huv => ?_)
  refine .bind (peek_follows huv fun x y hx hy alike => ?_)
  rw [alike.isPlainWord]
  split_ifs with word
  · have real : x.content ≠ .endOfInput := by simp [Token.isPlainWord_content word]
    refine .bind (advance_follows huv hx real fun u v huv => .bind (.pure ?_))
    exact functionFrom_follows he stalls start _ huv
  · exact .bind (.pure (functionFrom_follows he stalls start none huv))

omit stalls in
theorem return_follows (h : s.Twin m limit c b t) :
    Follows (return_ expression) (return_ expression') s t (Mirrored m limit c) := by
  refine .bind (keyword_follows h fun start u v huv => ?_)
  refine .bind (peek_follows huv fun x y _ _ alike => ?_)
  dsimp only
  rw [alike.startsExpression]
  split_ifs
  · refine .bind (.mono (he limit c true u v huv) ?_)
    rintro n _ u v ⟨rfl, -, huv⟩
    exact .bind (.pure (made_follows huv (fun _ => rfl) fun _ => rfl))
  · exact .bind (.pure (made_follows huv (fun _ => rfl) fun _ => rfl))

omit stalls in
theorem define_follows (h : s.Twin m limit c b t) :
    Follows (define expression) (define expression') s t (Mirrored m limit c) := by
  refine .bind (keyword_follows h fun start u v huv => ?_)
  refine .bind (peek_follows huv fun x y hx hy alike => ?_)
  by_cases spent : x.content = .endOfInput
  · rw [spent]
    exact .unexpected
  · obtain ⟨rfl, -⟩ := alike.real spent
    obtain ⟨content, lexeme, place⟩ := x
    cases content with
    | «variable» name =>
      refine .bind (advance_follows huv hx spent fun u v huv => ?_)
      refine .bind (.mono (declaredType_follows huv) ?_)
      rintro declared _ u v ⟨rfl, huv⟩
      refine .bind (operator_follows huv fun _ u v huv => ?_)
      refine .bind (.mono (he limit c true u v huv) ?_)
      rintro value _ u v ⟨rfl, -, huv⟩
      exact made_follows huv (fun _ => rfl) fun _ => rfl
    | _ => exact .unexpected

theorem primary_follows (h : s.Twin m limit c b t) :
    Follows (primary expression) (primary expression') s t (Mirrored m limit c) := by
  refine .bind (peek_follows h fun x y hx hy alike => ?_)
  dsimp only
  by_cases spent : x.content = .endOfInput
  · rw [spent]
    exact .unexpected
  obtain ⟨rfl, near⟩ := alike.real spent
  have literal {value : Datum} {u v : Stream} (huv : u.Twin m limit c true v) :
      Mirrored m limit c (.literal (some x.span) value)
        (.literal (some (x.moved m).span) value) u v :=
    ⟨rfl, fun _ e => by cases e; exact near, huv⟩
  have reference {name : String} {default : Option String} {u v : Stream}
      (huv : u.Twin m limit c true v) :
      Mirrored m limit c (.reference (some x.span) name default)
        (.reference (some (x.moved m).span) name default) u v :=
    ⟨rfl, fun _ e => by cases e; exact near, huv⟩
  have taken {p p' : Token → Parser Node}
      (hp : ∀ u v, u.Twin m limit c true v →
        Follows (p x) (p' (x.moved m)) u v (Mirrored m limit c)) :
      Follows (advance >>= p) (advance >>= p') s t (Mirrored m limit c) :=
    .bind (advance_follows h hx spent hp)
  obtain ⟨content, lexeme, place⟩ := x
  cases content with
  | integer n => exact taken fun u v huv => .pure (literal huv)
  | float x => exact taken fun u v huv => .pure (literal huv)
  | string parts => exact taken fun u v huv => string_follows he stalls near huv
  | «variable» name => exact taken fun u v huv => .pure (reference huv)
  | defaulted name default => exact taken fun u v huv => .pure (reference huv)
  | delimiter =>
    refine .ite Iff.rfl (fun _ => parenthesized_follows he h) fun _ => ?_
    refine .ite Iff.rfl (fun _ => substitution_follows he stalls h) fun _ => ?_
    exact .ite Iff.rfl (fun _ => blockNode_follows he stalls h) fun _ => .unexpected
  | word =>
    refine .ite Iff.rfl (fun _ => taken fun u v huv => .pure (literal huv)) fun _ => ?_
    refine .ite Iff.rfl (fun _ => conditional_follows he stalls h) fun _ => ?_
    refine .ite Iff.rfl (fun _ => function_follows he stalls h) fun _ => ?_
    refine .ite Iff.rfl (fun _ => return_follows he h) fun _ => ?_
    exact .ite Iff.rfl (fun _ => define_follows he h) fun _ => .unexpected
  | operator => exact .unexpected
  | endOfInput => exact .unexpected

/-! ## Commands and calls -/

theorem argument_follows (h : s.Twin m limit c b t) :
    Follows (argument expression) (argument expression') s t (Mirrored m limit c) := by
  refine .bind (peek_follows h fun x y hx hy alike => ?_)
  rw [alike.isPlainWord, alike.isDelimiter (by decide)]
  split_ifs with word
  · have real : x.content ≠ .endOfInput := by simp [Token.isPlainWord_content word]
    obtain ⟨rfl, near⟩ := alike.real real
    refine .bind (advance_follows h hx real fun u v huv => .pure ⟨rfl, fun _ e => ?_, huv⟩)
    cases e
    exact near
  · exact parenthesized_follows he h
  · exact primary_follows he stalls h

omit he stalls in
theorem adjacent_moved (x y : Token) : adjacent (x.moved m) (y.moved m) = adjacent x y := by
  simp [adjacent, Token.moved, Span.moved, Position.moved]

omit he stalls in
theorem atBinding_follows {Q : Bool → Bool → Stream → Stream → Prop} (h : s.Twin m limit c b t)
    (hQ : ∀ bound : Bool, (bound → ∃ key eq, s.Next key ∧ key.isPlainWord ∧
      s.peek 1 = .ok eq ∧ eq.content ≠ .endOfInput) → Q bound bound s t) :
    Follows atBinding atBinding s t Q := by
  refine .bind (peek_follows h fun key key' hkey _ alike => ?_)
  by_cases word : key.isPlainWord
  · have real : key.content ≠ .endOfInput := by simp [Token.isPlainWord_content word]
    obtain ⟨rfl, -⟩ := alike.real real
    refine .ite (by rw [Token.isPlainWord_moved]; rfl) (fun _ => ?_) fun _ => .pure (hQ _ nofun)
    have first : ∀ j < 1, ∃ x, s.peek j = .ok x ∧ x.content ≠ .endOfInput := by
      intro j hj
      obtain rfl : j = 0 := by omega
      exact ⟨key, hkey, real⟩
    refine .bind (peekAt_follows h first fun eq eq' heq alike => ?_)
    by_cases assign : eq.isOperator "="
    · have real' := Token.isOperator_content assign
      obtain ⟨rfl, -⟩ := alike.real real'
      refine .ite (by rw [Token.isOperator_moved, adjacent_moved]) (fun _ => ?_)
        fun _ => .pure (hQ _ nofun)
      have second : ∀ j < 2, ∃ x, s.peek j = .ok x ∧ x.content ≠ .endOfInput := by
        intro j hj
        obtain rfl | rfl : j = 0 ∨ j = 1 := by omega
        · exact ⟨key, hkey, real⟩
        · exact ⟨eq, heq, real'⟩
      refine .bind (peekAt_follows h second fun value value' _ alike => .pure ?_)
      have same : (adjacent (eq.moved m) value' && startsArgument value') =
          (adjacent eq value && startsArgument value) := by
        rw [alike.startsArgument]
        by_cases spent : value.content = .endOfInput
        · have no : startsArgument value = false := by
            simp [startsArgument, isAtom, Token.isPlainWord, Token.isKeyword, Token.isDelimiter,
              spent]
          rw [no, Bool.and_false, Bool.and_false]
        · obtain ⟨rfl, -⟩ := alike.real spent
          rw [adjacent_moved]
      rw [same]
      exact hQ _ fun _ => ⟨key, eq, hkey, word, heq, real'⟩
    · have no : ¬ eq'.isOperator "=" := by rwa [alike.isOperator]
      rw [if_neg (by simp [assign]), if_neg (by simp [no])]
      exact .pure (hQ _ nofun)
  · have no : ¬ key'.isPlainWord := by rwa [alike.isPlainWord]
    rw [if_neg (by simp [word]), if_neg (by simp [no])]
    exact .pure (hQ _ nofun)

theorem binding_follows (h : s.Twin m limit c b t) {key eq : Token} (hkey : s.Next key)
    (real : key.content ≠ .endOfInput) (heq : s.peek 1 = .ok eq)
    (real' : eq.content ≠ .endOfInput) :
    Follows (binding expression) (binding expression') s t fun n n' u v =>
      n' = Node.relabelBinding m.relabel n ∧ u.Twin m limit c true v := by
  refine .bind (pop_follows h hkey real ?_)
  refine .bind (advance_follows (h.pop hkey real) (h.second hkey real heq) real'
    fun u v huv => ?_)
  refine .bind (.mono (argument_follows he stalls huv) ?_)
  rintro value _ u v ⟨rfl, -, huv⟩
  exact .bind (spanFrom_follows huv fun span _ => .pure ⟨rfl, huv⟩)

omit stalls in
theorem callArguments_follows (h : s.Twin m limit c b t) :
    Follows (callArguments expression) (callArguments expression') s t fun ns ns' u v =>
      ns' = Node.relabelAll m.relabel ns ∧ u.Twin m limit c true v := by
  refine .bind (delimiter_follows (by decide) h fun _ u v huv => ?_)
  refine listed_follows (g := Node.relabel m.relabel) (fun b s t h => ?_) (fun ns u v huv => ?_) huv
  · exact (he limit c b s t h).mono fun n n' u v hn => ⟨hn.1, hn.2.2⟩
  · refine .bind (delimiter_follows (by decide) huv fun _ u v huv => .pure ⟨?_, huv⟩)
    rw [Node.relabelAll_eq_map]

theorem arguments_follows (h : s.Twin m limit c b t) :
    Follows (arguments expression) (arguments expression') s t fun ns ns' u v =>
      ns' = Node.relabelAll m.relabel ns ∧ u.Twin m limit c b v := by
  refine .mono (many_follows (g := Node.relabel m.relabel) h fun u v huv => ?_)
    fun ns ns' u v ⟨hns, huv⟩ => ⟨hns.trans (Node.relabelAll_eq_map _ _).symm, huv⟩
  refine .bind (peek_follows huv fun x y _ _ alike => ?_)
  rw [alike.startsArgument]
  refine .ite Iff.rfl (fun _ => ?_) fun _ => .pure huv
  refine .bind (.mono (argument_follows he stalls huv) ?_)
  rintro arg _ u v ⟨rfl, -, huv⟩
  exact .pure ⟨rfl, huv.later b⟩

theorem named_follows (start name : Token) (env : List EnvBinding) (h : s.Twin m limit c true t) :
    Follows (named expression start name env)
      (named expression' (start.moved m) (name.moved m) (Node.relabelBindings m.relabel env))
      s t (Mirrored m limit c) := by
  refine .bind (peek_follows h fun next next' _ _ alike => ?_)
  have same : (next'.isDelimiter "(" && adjacent (name.moved m) next') =
      (next.isDelimiter "(" && adjacent name next) := by
    rw [alike.isDelimiter (by decide)]
    by_cases spent : next.content = .endOfInput
    · have no : next.isDelimiter "(" = false := by simp [Token.isDelimiter, spent]
      rw [no, Bool.false_and, Bool.false_and]
    · obtain ⟨rfl, -⟩ := alike.real spent
      rw [adjacent_moved]
  rw [same]
  refine .ite Iff.rfl (fun _ => ?_) fun _ => ?_
  · refine .bind (.mono (callArguments_follows he h) ?_)
    rintro args _ u v ⟨rfl, huv⟩
    exact made_follows huv (fun _ => rfl) fun _ => rfl
  · refine .bind (.mono (arguments_follows he stalls h) ?_)
    rintro args _ u v ⟨rfl, huv⟩
    exact made_follows huv (fun _ => rfl) fun _ => rfl

theorem prefixes_follows (h : s.Twin m limit c b t) :
    Follows (prefixes expression) (prefixes expression') s t fun bs bs' u v =>
      bs' = Node.relabelBindings m.relabel bs ∧ u.Twin m limit c b v ∧ (bs = [] → u = s) := by
  refine iterate_follows (R := fun bs bs' u v =>
    bs' = Node.relabelBindings m.relabel bs ∧ u.Twin m limit c b v ∧ (bs = [] → u = s)) h
    (fun bs bs' u v huv => ?_) ⟨rfl, h, fun _ => rfl⟩
  refine .bind (.bind (atBinding_follows huv.2.1 fun bound hbound => ?_))
  refine .ite Iff.rfl (fun yes => ?_) fun _ => .pure (.pure huv)
  obtain ⟨key, eq, hkey, plain, heq, real'⟩ := hbound yes
  have real : key.content ≠ .endOfInput := by simp [Token.isPlainWord_content plain]
  refine .bind (.mono (binding_follows he stalls huv.2.1 hkey real heq real') ?_)
  rintro n _ u v ⟨rfl, huv'⟩
  refine .pure (.pure ⟨?_, huv'.later b, fun e => by simp at e⟩)
  rw [huv.1, Node.relabelBindings_eq_map, Node.relabelBindings_eq_map, List.map_append]
  rfl

theorem command_follows {start : Token} (h : s.Twin m limit c b t) (hstart : s.Next start)
    (word : start.isPlainWord) :
    Follows (command expression start) (command expression' (start.moved m)) s t
      (Mirrored m limit c) := by
  refine .bind (.mono (prefixes_follows he stalls h) ?_)
  rintro env _ u v ⟨rfl, huv, first⟩
  refine .bind (peek_follows huv fun x y hx _ alike => ?_)
  rw [Node.isEmpty_relabelBindings, alike.isPlainWord]
  refine .ite Iff.rfl (fun called => ?_) fun _ => .throw
  have plain := isPlainWord_name hstart word first hx called
  have real : x.content ≠ .endOfInput := by simp [Token.isPlainWord_content plain]
  exact .bind (advance_follows huv hx real fun u v huv => named_follows he stalls start x env huv)

theorem application_follows (h : s.Twin m limit c b t) :
    Follows (application expression) (application expression') s t (Mirrored m limit c) := by
  rw [application_eq, application_eq]
  refine .bind (peek_follows h fun start start' hstart _ alike => ?_)
  by_cases word : start.isPlainWord
  · obtain ⟨rfl, -⟩ := alike.real (by simp [Token.isPlainWord_content word])
    rw [if_pos word, if_pos (by rwa [Token.isPlainWord_moved])]
    exact command_follows he stalls h hstart word
  · rw [if_neg word, if_neg (by rwa [alike.isPlainWord])]
    exact primary_follows he stalls h

omit he stalls in
/-- Nothing is read at the end of the text by what always reads a token. -/
theorem stalls_of_wp {α : Type} {p : Parser α} {P : α → Prop}
    (h : ∀ s : Stream, s.Within 0 → WP p s fun a u => s.Reads 1 u ∧ P a) : Stalls p := by
  rintro s ⟨e, xs, ahead, spent⟩ ⟨a, u⟩ ha
  have within : s.Within 0 := by
    rw [Stream.Within, ahead]
    exact spent
  obtain ⟨read, hread, some, real⟩ := ((h s within).of_ok ha).1
  cases read with
  | nil => exact absurd some (Nat.not_succ_le_zero 0)
  | cons x xs =>
    rw [ahead] at hread
    cases hread
    exact real e List.mem_cons_self spent

omit he stalls in
/-- An expression is looked at before it is read. -/
theorem start_follows {α β : Type} {p : Parser Node} {f : Token → Node → Parser α}
    {Q : α → β → Stream → Stream → Prop} {g : Token → Parser β}
    (h : s.Twin m limit c b t) (stalls : Stalls p)
    (hQ : ∀ x, Follows (p >>= f x) (g (x.moved m)) s t Q) :
    Follows (peek 0 >>= fun x => p >>= f x) (peek 0 >>= g) s t Q := by
  refine .bind (peek_follows h fun x y hx _ alike => ?_)
  by_cases spent : x.content = .endOfInput
  · intro a u ha
    obtain ⟨n, hn, -⟩ := bind_eq_ok (x := p.run s) ha
    exact absurd hn (stalls s (h.over hx spent).1 n)
  · obtain ⟨rfl, -⟩ := alike.real spent
    exact hQ x

omit he stalls in
theorem stalls_application : Stalls (application expression) :=
  stalls_of_wp fun _ hs => application_wp (fun _ h => absurd h (Nat.not_lt_zero _)) hs

theorem postfixCalls_follows (h : s.Twin m limit c b t) :
    Follows (postfixCalls expression) (postfixCalls expression') s t (Mirrored m limit c) := by
  refine start_follows h stalls_application fun start => ?_
  refine .bind (.mono (application_follows he stalls h) fun n n' u v hn => ?_)
  refine iterate_follows (R := Mirrored m limit c) hn.2.2 (fun callee callee' u v hc => ?_) hn
  refine .bind (atDelimiter_follows (by decide) hc.2.2 fun _ _ => ?_)
  refine .ite Iff.rfl (fun _ => ?_) fun _ => .pure hc
  refine .bind (.mono (callArguments_follows he hc.2.2) ?_)
  rintro args _ u v ⟨rfl, huv⟩
  obtain ⟨rfl, -⟩ := hc
  refine .bind (spanFrom_follows huv fun span near => .pure ⟨rfl, fun _ e => ?_, huv⟩)
  cases e
  exact near

/-! ## Operators -/

theorem signed_follows (h : s.Twin m limit c b t) :
    Follows (signed expression) (signed expression') s t (Mirrored m limit c) := by
  refine .bind (.mono (many_follows (g := Token.moved m) h fun u v huv => ?_) ?_)
  · refine .bind (atOperator_follows huv fun x hx => ?_)
    refine .bind (atOperator_follows huv fun y hy => ?_)
    cases hx.symm.trans hy
    refine .ite Iff.rfl (fun sign => ?_) fun _ => .pure huv
    rw [Bool.or_eq_true] at sign
    have real := sign.elim Token.isOperator_content Token.isOperator_content
    exact .bind (advance_follows huv hx real fun u v huv => .pure ⟨rfl, huv.later b⟩)
  · rintro signs _ u v ⟨rfl, huv⟩
    refine .bind (.mono (postfixCalls_follows he stalls huv) fun n n' u v hn => ?_)
    induction signs with
    | nil => exact .pure hn
    | cons sign signs ih =>
      rw [List.map_cons, List.foldrM_cons, List.foldrM_cons]
      refine .bind (.mono ih ?_)
      rintro operand _ u v ⟨rfl, -, huv⟩
      exact made_follows huv (fun _ => rfl) fun _ => rfl

end

theorem atOneOf_follows {ops : List BinaryOperator} {Q : Bool → Bool → Stream → Stream → Prop}
    (h : s.Twin m limit c b t)
    (hQ : ∀ (x : Token) (found : Bool), s.Next x → (found → x.content ≠ .endOfInput) →
      Q found found s t) : Follows (atOneOf ops) (atOneOf ops) s t Q := by
  refine .bind (peek_follows h fun x y hx _ alike => .pure ?_)
  simp only [alike.isOperator]
  refine hQ x _ hx fun found => ?_
  obtain ⟨op, -, isOp⟩ := List.any_eq_true.mp found
  exact Token.isOperator_content isOp

section

variable {operand operand' : Parser Node} (he : Mirrors m operand operand')
  (stalls : Stalls operand)
include he stalls

omit he in
theorem stalls_chain (ops : List BinaryOperator) : Stalls (chain ops operand) := by
  intro s spent r hr
  obtain ⟨x, hx, -⟩ := spent.next
  rw [chain, StateT.run_bind, run_peek, hx] at hr
  obtain ⟨n, hn, -⟩ := bind_eq_ok (x := operand.run s) hr
  exact stalls s spent n hn

omit he in
theorem stalls_comparison : Stalls (comparison operand) := by
  intro s spent r hr
  obtain ⟨x, hx, -⟩ := spent.next
  rw [comparison, StateT.run_bind, run_peek, hx] at hr
  obtain ⟨n, hn, -⟩ := bind_eq_ok (x := operand.run s) hr
  exact stalls s spent n hn

theorem mirrors_chain (ops : List BinaryOperator) :
    Mirrors m (chain ops operand) (chain ops operand') := by
  intro limit c b s t h
  refine start_follows h stalls fun start => ?_
  refine .bind (.mono (he limit c b s t h) fun n n' u v hn => ?_)
  refine iterate_follows (R := Mirrored m limit c) hn.2.2 (fun left left' u v hl => ?_) hn
  refine .bind (atOneOf_follows hl.2.2 fun x found hx hfound => ?_)
  refine .ite Iff.rfl (fun yes => ?_) fun _ => .pure hl
  refine .bind (advance_follows hl.2.2 hx (hfound yes) fun u v huv => ?_)
  refine .bind (.mono (he limit c true u v huv) ?_)
  rintro right _ u v ⟨rfl, -, huv⟩
  obtain ⟨rfl, -⟩ := hl
  refine .bind (spanFrom_follows huv fun span near => .pure ⟨rfl, fun _ e => ?_, huv⟩)
  cases e
  exact near

theorem mirrors_comparison : Mirrors m (comparison operand) (comparison operand') := by
  intro limit c b s t h
  refine start_follows h stalls fun start => ?_
  refine .bind (.mono (he limit c b s t h) fun left left' u v hl => ?_)
  refine .bind (atOneOf_follows hl.2.2 fun x found hx hfound => ?_)
  refine .ite Iff.rfl (fun yes => ?_) fun _ => .pure hl
  refine .bind (advance_follows hl.2.2 hx (hfound yes) fun u v huv => ?_)
  refine .bind (.mono (he limit c true u v huv) ?_)
  rintro right _ u v ⟨rfl, -, huv⟩
  obtain ⟨rfl, -⟩ := hl
  refine .bind (spanFrom_follows huv fun span near => ?_)
  refine .bind (atOneOf_follows huv fun _ _ _ _ => ?_)
  refine .ite Iff.rfl (fun _ => .bind (peek_follows huv fun _ _ _ _ _ => .throw)) fun _ => ?_
  refine .pure ⟨rfl, fun _ e => ?_, huv⟩
  cases e
  exact near

theorem mirrors_operation : Mirrors m (operation operand) (operation operand') := by
  have factors := mirrors_chain he stalls [.mul, .div, .mod]
  have stalls₁ := stalls_chain stalls [.mul, .div, .mod]
  have terms := mirrors_chain factors stalls₁ [.add, .sub]
  have stalls₂ := stalls_chain stalls₁ [.add, .sub]
  have compared := mirrors_comparison terms stalls₂
  have stalls₃ := stalls_comparison stalls₂
  exact mirrors_chain (mirrors_chain compared stalls₃ [.and]) (stalls_chain stalls₃ [.and]) [.or]

end

/-! ## Expressions -/

theorem stalls_expressionWith (expression : Parser Node) : Stalls (expressionWith expression) :=
  stalls_of_wp fun _ hs => expressionWith_wp (fun _ h => absurd h (Nat.not_lt_zero _)) hs

theorem mirrors_expressionWith (he : Mirrors m expression expression')
    (stalls : Stalls expression) :
    Mirrors m (expressionWith expression) (expressionWith expression') := by
  intro limit c b s t h
  have signs : Mirrors m (signed expression) (signed expression') :=
    fun _ _ _ _ _ h => signed_follows he stalls h
  have operations := mirrors_operation signs
    (stalls_of_wp fun _ hs => signed_wp (fun _ h => absurd h (Nat.not_lt_zero _)) hs)
    limit c b s t h
  by_cases spent : s.Over
  · exact fun a u ha => absurd ha (stalls_expressionWith expression s spent (a, u))
  refine .bind (peek_follows h fun x y hx _ alike => ?_)
  have real : x.content ≠ .endOfInput := fun he => spent (h.over hx he).1
  obtain ⟨rfl, -⟩ := alike.real real
  refine .ite (by rw [alike.isKeyword]) (fun _ => define_follows he h) fun _ => ?_
  obtain ⟨content, lexeme, place⟩ := x
  cases content with
  | «variable» name =>
    have first : ∀ j < 1, ∃ x, s.peek j = .ok x ∧ x.content ≠ .endOfInput := by
      intro j hj
      obtain rfl : j = 0 := by omega
      exact ⟨_, hx, real⟩
    refine .bind (peekAt_follows h first fun eq eq' heq alike => ?_)
    refine .ite (by rw [alike.isOperator]) (fun assign => ?_) fun _ => operations
    refine .bind (pop_follows h hx real ?_)
    refine .bind (advance_follows (h.pop hx real) (h.second hx real heq)
      (Token.isOperator_content assign) fun u v huv => ?_)
    refine .bind (.mono (he limit c true u v huv) ?_)
    rintro value _ u v ⟨rfl, -, huv⟩
    exact made_follows huv (fun _ => rfl) fun _ => rfl
  | _ => exact operations

theorem stalls_expressionUpTo (k : Nat) : Stalls (expressionUpTo k) := by
  cases k with
  | zero => exact fun _ _ _ => nofun
  | succ k => exact stalls_expressionWith _

/-- Expressions are read in a longer text as they are in the text, with a bound on the depth that is
no smaller. -/
theorem mirrors_expressionUpTo {j k : Nat} (h : j ≤ k) :
    Mirrors m (expressionUpTo j) (expressionUpTo k) := by
  induction j generalizing k with
  | zero => exact fun _ _ _ _ _ _ => .throw
  | succ j ih =>
    obtain ⟨k, rfl⟩ : ∃ l, k = l + 1 := ⟨k - 1, by omega⟩
    exact mirrors_expressionWith (ih (Nat.le_of_succ_le_succ h)) (stalls_expressionUpTo j)

end

end Parser

end Sigil
