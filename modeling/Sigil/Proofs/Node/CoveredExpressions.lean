import Sigil.Proofs.Node.Covered

/-!
# Commands and operations cover what was read for them

What is bound before a command, its name and its arguments are read one behind
the other, as are an operation's operands, and a sign and what it stands before.
The levels of the grammar keep that the expressions within lay their nodes out
(`Parser.covers_expressionWith`), and so it holds to any depth
(`Parser.covers_expressionUpTo`).
-/

namespace Sigil

namespace Parser

variable {enclosed : Prop} {base limit : Nat} {s t : Stream} {x : Token} {ns : List Node}

/-! ## Commands and calls -/

/-- Whether a binding comes next is seen without reading; if so, two tokens do. -/
theorem yields_atBinding {Q : Bool → Stream → Prop}
    (h : ∀ b, (b = true → ∃ key eq, s.Next key ∧ key.content ≠ .endOfInput ∧ s.peek 1 = .ok eq ∧
      eq.content ≠ .endOfInput) → Q b s) : Yields atBinding s Q := by
  refine .bind (yields_next fun key hkey => ?_)
  split_ifs with word
  · refine .bind (yields_peek fun eq heq => ?_)
    rw [Bool.and_eq_true] at word
    split_ifs with assign
    · rw [Bool.and_eq_true] at assign
      have real : key.content ≠ .endOfInput := by simp [Token.isPlainWord_content word.1]
      exact .bind (yields_peek fun value _ => .pure
        (h _ fun _ => ⟨key, eq, hkey, real, heq, Token.isOperator_content assign.1⟩))
    · exact .pure (h _ fun none => by cases none)
  · exact .pure (h _ fun none => by cases none)

section

variable {expression : Parser Node} (he : LaysNode enclosed expression)
include he

theorem lays_argument : LaysNode enclosed (argument expression) := by
  refine fun base limit s hs => .bind (yields_next fun x hx => ?_)
  split_ifs with word
  · have real : x.content ≠ .endOfInput := by simp [Token.isPlainWord_content word]
    have site : Site enclosed expression base s (s.pop x) (.literal (some x.span) (.text x.lexeme)) :=
      site_leaf hs hx real rfl rfl
    exact .bind (yields_advance hx (.pure site.1))
  · exact (covers_parenthesized he).lays base limit s hs
  · exact (covers_primary he).lays base limit s hs

theorem yields_binding (hs : s.Laid enclosed base limit) {key eq : Token} (hkey : s.Next key)
    (realkey : key.content ≠ .endOfInput) (heq : s.peek 1 = .ok eq)
    (realeq : eq.content ≠ .endOfInput) :
    Yields (binding expression) s fun b t => s.Gains enclosed base t [.binding b] := by
  have since := Stream.Since.first hs hkey realkey
  have heq' := hs.next_pop hkey realkey heq
  refine .bind (yields_advance hkey (.bind (yields_advance heq' (.bind ?_))))
  refine ((lays_argument he).since (since.pop heq' realeq)).mono fun value t since => ?_
  exact .bind (yields_spanFrom (.pure (since.made hkey rfl).gains))

theorem yields_prefixes (hs : s.Laid enclosed base limit) : Yields (prefixes expression) s fun bs t =>
    s.Gains enclosed base t (bs.map .binding) ∧ (bs = [] → t = s) := by
  refine yields_iterate (a := []) (I := fun bs t => s.Gains enclosed base t (bs.map .binding) ∧
    (bs = [] → t = s)) (fun bs t inv => ?_) ⟨.refl base s, fun _ => rfl⟩
  refine .bind (.bind (yields_atBinding fun b found => ?_))
  split_ifs with next
  · obtain ⟨key, eq, hkey, realkey, heq, realeq⟩ := found next
    refine .bind ((yields_binding he (inv.1.laid hs) hkey realkey heq realeq).mono
      fun b u read => .pure (.pure ⟨?_, fun none => by cases bs <;> cases none⟩))
    show s.Gains enclosed base u ((bs ++ [b]).map .binding)
    rw [List.map_append]
    exact inv.1.trans hs read
  · exact .pure (.pure inv)

theorem lays_callArguments : Lays enclosed (fun ns => ns) (callArguments expression) := by
  refine fun base limit s hs => .bind ((starts_delimiter _ base limit s hs).mono ?_)
  rintro x t ⟨-, since⟩
  refine yields_listed he since fun as t since => ?_
  rw [List.nil_append, List.flatMap_singleton'] at since
  exact .bind (((starts_delimiter _).lays.passed since).mono fun _ u since => .pure since.gains)

theorem lays_arguments : Lays enclosed (fun ns => ns) (arguments expression) := by
  intro base limit s hs
  refine (lays_many (f := fun n => [n]) ?_ base limit s hs).mono fun ns _ gains =>
    (List.flatMap_singleton' ns).symm ▸ gains
  refine fun base limit s hs => .bind (yields_next fun x _ => ?_)
  split_ifs
  · exact .bind ((lays_argument he base limit s hs).mono fun n t gains => .pure gains)
  · exact .pure (.refl base s)

theorem yields_named {start name : Token} {env : List EnvBinding}
    (since : s.Since enclosed base limit t (env.map .binding)) (hstart : s.Next start) :
    Yields (named expression start name env) t fun n u => Site enclosed expression base s u n := by
  refine .bind (yields_next fun next _ => ?_)
  dsimp only
  split_ifs
  · refine .bind (((lays_callArguments he).since since).mono fun args u since => ?_)
    exact yields_made since hstart (fun _ => rfl) fun _ => rfl
  · refine .bind (((lays_arguments he).since since).mono fun args u since => ?_)
    exact yields_made since hstart (fun _ => rfl) fun _ => rfl

theorem yields_command (hs : s.Laid enclosed base limit) (hx : s.Next x) (word : x.isPlainWord) :
    Yields (command expression x) s fun n t => Site enclosed expression base s t n := by
  refine .bind ((yields_prefixes he hs).mono ?_)
  rintro env t ⟨gains, first⟩
  refine .bind (yields_next fun name hname => ?_)
  split_ifs with called
  · have real : name.content ≠ .endOfInput := by
      simp [Token.isPlainWord_content (isPlainWord_name hx word first hname called)]
    exact .bind (yields_advance hname (yields_named he (.behind hs gains hname real) hx))
  · exact .throw

theorem covers_application : Covers enclosed expression (application expression) := by
  rw [application_eq]
  refine fun base limit s hs => .bind (yields_next fun x hx => ?_)
  split_ifs with word
  · exact yields_command he hs hx word
  · exact covers_primary he base limit s hs

theorem covers_postfixCalls : Covers enclosed expression (postfixCalls expression) := by
  refine fun base limit s hs => .bind (yields_next fun x hx => ?_)
  refine .bind ((covers_application he base limit s hs).mono fun callee t site => ?_)
  refine yields_iterate (I := fun callee t => Site enclosed expression base s t callee)
    (fun callee t site => ?_) site
  have since := Stream.Since.node hs site.1
  refine .bind (yields_test fun y _ => ?_)
  split_ifs
  · refine .bind (((lays_callArguments he).since since).mono fun args u since => ?_)
    exact .bind (yields_spanFrom (.pure (site_of_since since hx rfl)))
  · exact .pure site

/-! ## Operators -/

/-- Signs are applied from the last to the first, which are read one behind the other. -/
theorem covers_signed : Covers enclosed expression (signed expression) := by
  intro base limit s hs
  -- a node behind the signs becomes one from the first sign on
  let applied (signs : List Token) (t : Stream) : Prop :=
    ∀ n u, Site enclosed expression base t u n →
      Yields (signs.foldrM (fun sign operand => do
        return Node.unary (← spanFrom sign) (.ofSymbol sign.lexeme) operand) n) u
        fun n u => Site enclosed expression base s u n
  refine .bind ((yields_iterate (I := fun signs t => t.Laid enclosed base limit ∧ applied signs t)
    (fun signs t inv => ?_) ⟨hs, fun n u site => .pure site⟩).mono fun signs t inv => ?_)
  · obtain ⟨ht, inv⟩ := inv
    refine .bind (.bind (yields_test fun y hy => .bind (yields_test fun z hz => ?_)))
    cases hy.symm.trans hz
    split_ifs with sign
    · have real : y.content ≠ .endOfInput := by
        rw [Bool.or_eq_true] at sign
        exact sign.elim Token.isOperator_content Token.isOperator_content
      have since := Stream.Since.first ht hy real
      refine .bind (yields_advance hy (.pure (.pure ⟨since.later, fun n u site => ?_⟩)))
      show Yields ((signs ++ [y]).foldrM _ n) u _
      rw [List.foldrM_append, List.foldrM_cons, List.foldrM_nil, pure_bind]
      refine .bind (.bind (yields_spanFrom (.pure (inv _ u ?_))))
      exact site_of_since (since.trans site.1) hy rfl
    · exact .pure (.pure ⟨ht, inv⟩)
  · exact .bind ((covers_postfixCalls he base limit t inv.1).mono inv.2)

end

theorem real_of_isOneOf {ops : List BinaryOperator} (h : isOneOf ops x) :
    x.content ≠ .endOfInput :=
  fun spent => by cases h.symm.trans ((finds_isOneOf ops).ends x spent)

section

variable {expression operand : Parser Node} (ho : Covers enclosed expression operand)
include ho

theorem covers_chain (ops : List BinaryOperator) :
    Covers enclosed expression (chain ops operand) := by
  refine fun base limit s hs => .bind (yields_next fun x hx => ?_)
  refine .bind ((ho base limit s hs).mono fun first t site => ?_)
  refine yields_iterate (I := fun left t => Site enclosed expression base s t left)
    (fun left t site => ?_) site
  have since := Stream.Since.node hs site.1
  refine .bind (yields_test fun y hy => ?_)
  split_ifs with found
  · have real := real_of_isOneOf found
    refine .bind (yields_advance hy (.bind ((ho.lays.since (since.pop hy real)).mono ?_)))
    intro right u since
    exact .bind (yields_spanFrom (.pure (site_of_since since hx rfl)))
  · exact .pure site

theorem covers_comparison : Covers enclosed expression (comparison operand) := by
  refine fun base limit s hs => .bind (yields_next fun x hx => ?_)
  refine .bind ((ho base limit s hs).mono fun left t site => ?_)
  have since := Stream.Since.node hs site.1
  refine .bind (yields_test fun y hy => ?_)
  split_ifs with found
  · have real := real_of_isOneOf found
    refine .bind (yields_advance hy (.bind ((ho.lays.since (since.pop hy real)).mono ?_)))
    intro right u since
    refine .bind (yields_spanFrom (.bind (yields_test fun z _ => ?_)))
    split_ifs
    · exact .bind (yields_peek fun _ _ => .throw)
    · exact .pure (site_of_since since hx rfl)
  · exact .pure site

theorem covers_operation : Covers enclosed expression (operation operand) :=
  covers_chain (covers_chain (covers_comparison (covers_chain (covers_chain ho _) _)) _) _

end

/-! ## Expressions -/

section

variable {expression : Parser Node} (he : LaysNode enclosed expression)
include he

theorem yields_assign (hs : s.Laid enclosed base limit) {eq : Token} {name : String} (hx : s.Next x)
    (realx : x.content ≠ .endOfInput) (heq : s.peek 1 = .ok eq)
    (realeq : eq.content ≠ .endOfInput) :
    Yields (assign expression name) s fun n t => Site enclosed expression base s t n := by
  have since := Stream.Since.first hs hx realx
  have heq' := hs.next_pop hx realx heq
  refine .bind (yields_advance hx (.bind (yields_advance heq' (.bind ?_))))
  refine (he.since (since.pop heq' realeq)).mono fun value t since => ?_
  exact yields_made since hx (fun _ => rfl) fun _ => rfl

theorem covers_expressionWith : Covers enclosed expression (expressionWith expression) := by
  refine fun base limit s hs => .bind (yields_next fun x hx => ?_)
  have operations := covers_operation (covers_signed he) base limit s hs
  split_ifs with word
  · exact covers_define he base limit s hs
  · obtain ⟨content, lexeme, place⟩ := x
    cases content with
    | «variable» name =>
      refine .bind (yields_peek fun eq heq => ?_)
      split_ifs with equal
      · exact yields_assign he hs hx nofun heq (Token.isOperator_content equal)
      · exact operations
    | _ => exact operations

end

theorem lays_expressionUpTo (k : Nat) : LaysNode enclosed (expressionUpTo k) := by
  induction k with
  | zero => exact fun _ _ _ _ => .throw
  | succ k ih => exact (covers_expressionWith ih).lays

/-- An expression is spelled by all that was read for it, or by what was read within parentheses
for an expression that nests less deep. -/
theorem covers_expressionUpTo (k : Nat) :
    Covers enclosed (expressionUpTo k) (expressionUpTo (k + 1)) :=
  covers_expressionWith (lays_expressionUpTo k)

end Parser

end Sigil
