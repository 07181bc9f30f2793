import Mathlib.Tactic.SplitIfs
import Sigil.Proofs.Node.Reading
import Sigil.Proofs.Node.Spanned
import Sigil.Proofs.Token.Placed

/-!
# Places of nodes

The nodes that are read from a text stand in it, and so does what reading stops at
(`parseEntries_standsIn`). A span of a node begins and ends with tokens of the
stream, and everything that a reader ever sees of a stream stands in the text if
the stream does (`Stream.StandsIn`). So all that has to be shown of a reader is
that it makes its nodes from such spans (`Parser.Places`), one lemma for each piece
of the grammar.
-/

namespace Sigil

variable {source : List Char}

/-- A span that a node may have stands in a text. -/
def InText (source : List Char) (span : Option Span) : Prop :=
  ∀ s ∈ span, s.StandsIn source

/-- The places of a node and of all nodes below it stand in a text. -/
def Node.StandsIn (source : List Char) (n : Node) : Prop :=
  n.Spanned (InText source)

/-- The places of a part of a string stand in a text. -/
def Part.StandsIn (source : List Char) : Part → Prop
  | .text _ => True
  | .node n => n.StandsIn source

/-- What reading stopped at stands in a text. -/
def Stop.StandsIn (source : List Char) : Stop → Prop
  | .lex e => e.position.StandsIn source
  | .parse e => e.position.StandsIn source
  | .needsMore _ | .exhausted => True

namespace Stream

/-- Everything that can be seen of a stream stands in a text. -/
structure StandsIn (source : List Char) (s : Stream) : Prop where
  ahead : ∀ t ∈ s.ahead, t.StandsIn source
  error : ∀ e ∈ s.error, e.position.StandsIn source
  previous : ∀ t ∈ s.previous, t.StandsIn source

theorem standsIn_ofLexed {l : Lexed} (h : l.StandsIn source) (openEnded : Bool) (start : Nat) :
    (ofLexed l openEnded start).StandsIn source :=
  ⟨fun t ht => h.tokens t (List.mem_of_mem_drop ht), h.error, nofun⟩

theorem StandsIn.pop {s : Stream} (h : s.StandsIn source) {t : Token} (ht : t.StandsIn source) :
    (s.pop t).StandsIn source := by
  have previous : ∀ u ∈ some t, u.StandsIn source := fun u hu => by cases hu; exact ht
  unfold Stream.pop
  split_ifs
  · exact ⟨h.ahead, h.error, previous⟩
  · exact ⟨fun u hu => h.ahead u (List.mem_of_mem_drop hu), h.error, previous⟩

end Stream

namespace Parser

variable {α β : Type}

/-- A result that is as `Q` says, with a stream that stands in the text, or a stop that does. -/
def Placed (source : List Char) (Q : α → Prop) : Except Stop (α × Stream) → Prop
  | .ok (a, t) => Q a ∧ t.StandsIn source
  | .error stop => stop.StandsIn source

/-- What the reader finds in a stream that stands in the text. -/
def Places (source : List Char) (Q : α → Prop) (m : Parser α) : Prop :=
  ∀ s : Stream, s.StandsIn source → Placed source Q (m.run s)

/-! ## Rules -/

section

variable {Q : α → Prop} {R : β → Prop} {m : Parser α}

theorem Places.pure {a : α} (h : Q a) : Places source Q (Pure.pure a) :=
  fun _ hs => ⟨h, hs⟩

theorem Places.bind {f : α → Parser β} (h : Places source Q m)
    (hf : ∀ a, Q a → Places source R (f a)) : Places source R (m >>= f) := by
  intro s hs
  have first := h s hs
  rw [StateT.run_bind]
  cases hm : m.run s with
  | error stop => rw [hm] at first; exact first
  | ok r =>
    rw [hm] at first
    exact hf r.1 first.1 r.2 first.2

theorem Places.throw {stop : Stop} (h : stop.StandsIn source) :
    Places source Q (MonadExcept.throw stop : Parser α) :=
  fun _ _ => h

theorem Places.get : Places source (Stream.StandsIn source) (MonadState.get : Parser Stream) :=
  fun _ hs => ⟨hs, hs⟩

/-- Reading another stream of the text on the way. -/
theorem Places.nested {t : Stream} (h : Places source Q m) (ht : t.StandsIn source) :
    Places source (fun r => Q r.1) (liftM (m.run t) : Parser (α × Stream)) := by
  intro s hs
  have first := h t ht
  change Placed source _ (liftM (m.run t) >>= fun r => Except.ok (r, s))
  cases hm : m.run t with
  | error stop => rw [hm] at first; exact first
  | ok r => rw [hm] at first; exact ⟨first.1, hs⟩

end

/-! ### Tokens -/

theorem peek_places (k : Nat) : Places source (Token.StandsIn source) (peek k) := by
  refine Places.get.bind fun s hs u hu => ?_
  change Placed source _ (s.peek k >>= fun t => Except.ok (t, u))
  unfold Stream.peek
  split
  · next t ht => exact ⟨hs.ahead t (List.mem_of_getElem? ht), hu⟩
  · split
    · next e he =>
      split_ifs
      · trivial
      · exact hs.error e he
    · refine ⟨?_, hu⟩
      cases hl : s.ahead.getLast? with
      | some t => exact hs.ahead t (List.mem_of_getLast? hl)
      | none =>
        refine Token.standsIn_atEnd ?_
        cases hp : s.previous with
        | none => exact Position.standsIn_start
        | some t => exact (hs.previous t hp).span.2

theorem advance_places : Places source (Token.StandsIn source) advance :=
  (peek_places 0).bind fun _ ht _ hs => ⟨ht, hs.pop ht⟩

theorem unexpected_places {Q : α → Prop} (expected : Expected) :
    Places source Q (unexpected expected : Parser α) := by
  refine (peek_places 0).bind fun t ht => Places.get.bind fun s _ => ?_
  split_ifs
  · exact .throw trivial
  · exact .throw ht.span.1

theorem atOperator_places (s : String) : Places source (fun _ => True) (atOperator s) :=
  (peek_places 0).bind fun _ _ => .pure trivial

theorem atDelimiter_places (s : String) : Places source (fun _ => True) (atDelimiter s) :=
  (peek_places 0).bind fun _ _ => .pure trivial

theorem atKeyword_places (s : String) : Places source (fun _ => True) (atKeyword s) :=
  (peek_places 0).bind fun _ _ => .pure trivial

theorem operator_places (s : String) : Places source (Token.StandsIn source) (operator s) := by
  refine (atOperator_places s).bind fun there _ => ?_
  split_ifs
  · exact advance_places
  · exact unexpected_places _

theorem delimiter_places (s : String) : Places source (Token.StandsIn source) (delimiter s) := by
  refine (atDelimiter_places s).bind fun there _ => ?_
  split_ifs
  · exact advance_places
  · exact unexpected_places _

theorem keyword_places (s : String) : Places source (Token.StandsIn source) (keyword s) := by
  refine (atKeyword_places s).bind fun there _ => ?_
  split_ifs
  · exact advance_places
  · exact unexpected_places _

theorem spanFrom_places {start : Token} (h : start.StandsIn source) :
    Places source (InText source) (spanFrom start) := by
  refine Places.get.bind fun s hs => .pure fun span hspan => ?_
  cases hspan
  refine ⟨h.span.1, ?_⟩
  cases hp : s.previous with
  | none => exact h.span.2
  | some t => exact (hs.previous t hp).span.2

/-! ### Loops -/

section

variable {Q : α → Prop}

theorem iterate_places {step : α → Parser (Option α)}
    (h : ∀ a, Q a → Places source (fun r => ∀ b ∈ r, Q b) (step a)) {a : α} (ha : Q a) :
    Places source Q (iterate step a) := by
  have upTo (bound : Nat) : ∀ a, Q a → Places source Q (iterateUpTo step bound a) := by
    induction bound with
    | zero => exact fun _ _ => .throw trivial
    | succ bound ih =>
      refine fun a ha => (h a ha).bind fun r hr => ?_
      cases r with
      | none => exact .pure ha
      | some b => exact ih b (hr b rfl)
  exact Places.get.bind fun s _ => upTo _ a ha

theorem many_places {step : Parser (Option α)} (h : Places source (fun r => ∀ a ∈ r, Q a) step) :
    Places source (fun as => ∀ a ∈ as, Q a) (many step) := by
  refine iterate_places (fun as has => h.bind fun r hr => .pure fun bs hbs => ?_) nofun
  obtain ⟨a, ha, rfl⟩ := Option.map_eq_some_iff.mp hbs
  exact forall_mem_snoc has (hr a ha)

theorem commaSeparated_places {item : Parser α} (h : Places source Q item) :
    Places source (fun as => ∀ a ∈ as, Q a) (commaSeparated item) := by
  refine h.bind fun first hfirst => Places.bind (many_places (Q := Q) ?_) fun rest hrest =>
    .pure (List.forall_mem_cons.mpr ⟨hfirst, hrest⟩)
  refine (atDelimiter_places ",").bind fun there _ => ?_
  split_ifs
  · exact advance_places.bind fun _ _ => h.bind fun a ha => .pure fun b hb => by cases hb; exact ha
  · exact .pure nofun

/-- Items in parentheses, of which there may be none; `rest` is what follows. -/
theorem listed_places {item : Parser α} {R : β → Prop} {rest : List α → Parser β}
    (h : Places source Q item) (hrest : ∀ as, (∀ a ∈ as, Q a) → Places source R (rest as)) :
    Places source R
      (do if ← atDelimiter ")" then Pure.pure [] >>= rest else commaSeparated item >>= rest) := by
  refine (atDelimiter_places ")").bind fun there _ => ?_
  split_ifs
  · exact (Places.pure nofun).bind hrest
  · exact (commaSeparated_places h).bind hrest

theorem mapM_places {f : β → Parser α} {bs : List β} (h : ∀ b ∈ bs, Places source Q (f b)) :
    Places source (fun as => ∀ a ∈ as, Q a) (bs.mapM f) := by
  induction bs with
  | nil => exact .pure nofun
  | cons b bs ih =>
    rw [List.mapM_cons]
    refine (h b List.mem_cons_self).bind fun a ha => ?_
    refine (ih fun b hb => h b (List.mem_cons_of_mem _ hb)).bind fun as has => ?_
    exact .pure (List.forall_mem_cons.mpr ⟨ha, has⟩)

theorem foldrM_places {f : β → α → Parser α} {bs : List β} {a : α} (ha : Q a)
    (h : ∀ b ∈ bs, ∀ a, Q a → Places source Q (f b a)) : Places source Q (bs.foldrM f a) := by
  induction bs with
  | nil => exact .pure ha
  | cons b bs ih =>
    rw [List.foldrM_cons]
    refine (ih fun b hb => h b (List.mem_cons_of_mem _ hb)).bind fun a ha => ?_
    exact h b List.mem_cons_self a ha

end

/-! ## Types -/

theorem type_places : Places source (fun _ => True) type := by
  have upTo (depth : Nat) : Places source (fun _ => True) (typeUpTo depth) := by
    induction depth with
    | zero => exact .throw trivial
    | succ depth ih =>
      refine (peek_places 0).bind fun t ht => ?_
      dsimp only
      split_ifs
      · exact unexpected_places _
      · refine advance_places.bind fun _ _ => (delimiter_places "(").bind fun _ _ => ?_
        refine listed_places ih fun _ _ => (delimiter_places ")").bind fun _ _ => ?_
        exact (operator_places "->").bind fun _ _ => ih.bind fun _ _ => .pure trivial
      · refine advance_places.bind fun _ _ => ?_
        cases Ty.ofName? t.lexeme with
        | some ty => exact .pure trivial
        | none => exact .throw ht.span.1
  exact Places.get.bind fun s _ => upTo _

theorem declaredType_places : Places source (fun _ => True) declaredType := by
  refine (atOperator_places ":").bind fun there _ => ?_
  split_ifs
  · exact advance_places.bind fun _ _ => type_places.bind fun _ _ => .pure trivial
  · exact .pure trivial

/-! ## Nodes -/

theorem standsIn_of {n : Node} (span : InText source n.span)
    (children : ∀ m ∈ n.children, m.StandsIn source) : n.StandsIn source :=
  Node.spanned_iff.mpr ⟨span, children⟩

/-- A node with nothing below it. -/
theorem standsIn_leaf {n : Node} {s : Span} (h : s.StandsIn source) (hn : n.span = some s)
    (leaf : n.children = []) : n.StandsIn source := by
  refine standsIn_of ?_ (by rw [leaf]; nofun)
  rw [hn]
  rintro _ ⟨⟩
  exact h

section

variable {expression : Parser Node} (he : Places source (Node.StandsIn source) expression)

/-! ### Entries -/

theorem atClosing_places (closing : Option String) :
    Places source (fun _ => True) (atClosing closing) := by
  cases closing with
  | none => exact (peek_places 0).bind fun _ _ => .pure trivial
  | some d => exact atDelimiter_places d

theorem skipSemicolons_places : Places source (fun _ => True) skipSemicolons := by
  refine Places.bind (many_places (Q := fun _ => True) ?_) fun _ _ => .pure trivial
  refine (atDelimiter_places ";").bind fun there _ => ?_
  split_ifs
  · exact advance_places.bind fun _ _ => .pure fun _ _ => trivial
  · exact .pure nofun

theorem endEntry_places (closing : Option String) :
    Places source (fun _ => True) (endEntry closing) := by
  refine (atDelimiter_places ";").bind fun there _ => ?_
  split_ifs
  · exact advance_places.bind fun _ _ => .pure trivial
  · refine (atClosing_places closing).bind fun ends _ => ?_
    split_ifs
    · exact .pure trivial
    · refine Places.get.bind fun s _ => ?_
      split_ifs
      · exact .pure trivial
      · exact unexpected_places _

include he

theorem entry_places (closing : Option String) :
    Places source (fun r => ∀ n ∈ r, n.StandsIn source) (entry expression closing) := by
  refine skipSemicolons_places.bind fun _ _ => (atClosing_places closing).bind fun ends _ => ?_
  split_ifs
  · exact .pure nofun
  · refine he.bind fun n hn => (endEntry_places closing).bind fun _ _ => .pure fun m hm => ?_
    cases hm
    exact hn

theorem entries_places (closing : Option String) :
    Places source (fun ns => ∀ n ∈ ns, n.StandsIn source) (entries expression closing) :=
  many_places (entry_places he closing)

/-- The entries of a text, as a span and a body. -/
theorem program_places :
    Places source (fun r => InText source r.1 ∧ ∀ n ∈ r.2, n.StandsIn source)
      (program expression) := by
  refine (peek_places 0).bind fun start hstart => (entries_places he none).bind fun body hbody => ?_
  exact (spanFrom_places hstart).bind fun span hspan => .pure ⟨hspan, hbody⟩

/-! ### Primary expressions -/

theorem stringPart_places {part : StringPart} (h : part.StandsIn source) :
    Places source (Part.StandsIn source) (stringPart expression part) := by
  cases part with
  | text s => exact .pure trivial
  | «variable» name default span => exact .pure (standsIn_leaf h rfl rfl)
  | substitution inside span =>
    have stream := Stream.standsIn_ofLexed h.1.tokens false 0
    refine ((program_places he).nested stream).bind fun r hr => .pure (standsIn_of ?_ hr.2)
    rintro _ ⟨⟩
    exact h.2

theorem string_places {span : Span} {parts : List StringPart} (hspan : span.StandsIn source)
    (h : ∀ part ∈ parts, part.StandsIn source) :
    Places source (Node.StandsIn source) (string expression span parts) := by
  unfold string
  dsimp only
  split_ifs
  · exact .pure (standsIn_leaf hspan rfl rfl)
  · refine (mapM_places fun part hp => stringPart_places he (h part hp)).bind fun ps hps => ?_
    refine .pure (standsIn_of (fun s hs => by cases hs; exact hspan) fun m hm => ?_)
    obtain ⟨p, hp, hm⟩ := List.mem_filterMap.mp hm
    cases p with
    | text s => cases hm
    | node n =>
      cases hm
      exact hps _ hp

theorem substitution_places : Places source (Node.StandsIn source) (substitution expression) := by
  refine (delimiter_places _).bind fun start hstart => (entries_places he _).bind fun body hbody => ?_
  refine (delimiter_places _).bind fun _ _ => (spanFrom_places hstart).bind fun span hspan => ?_
  exact .pure (standsIn_of hspan hbody)

theorem parenthesized_places : Places source (Node.StandsIn source) (parenthesized expression) := by
  refine (delimiter_places _).bind fun start hstart => (atDelimiter_places _).bind fun there _ => ?_
  split_ifs
  · refine advance_places.bind fun _ _ => (spanFrom_places hstart).bind fun span hspan => ?_
    exact .pure (standsIn_of hspan nofun)
  · exact he.bind fun n hn => (delimiter_places _).bind fun _ _ => .pure hn

theorem block_places :
    Places source (fun r => InText source r.1 ∧ ∀ n ∈ r.2, n.StandsIn source)
      (block expression) := by
  refine (delimiter_places _).bind fun start hstart => (entries_places he _).bind fun body hbody => ?_
  refine (delimiter_places _).bind fun _ _ => (spanFrom_places hstart).bind fun span hspan => ?_
  exact .pure ⟨hspan, hbody⟩

theorem blockNode_places : Places source (Node.StandsIn source) (blockNode expression) :=
  (block_places he).bind fun _ h => .pure (standsIn_of h.1 h.2)

theorem elseBranch_places {start : Token} {condition thenBranch : Node}
    (hstart : start.StandsIn source) (hc : condition.StandsIn source)
    (ht : thenBranch.StandsIn source) :
    Places source (Node.StandsIn source) (elseBranch expression start condition thenBranch) := by
  have done (elseBranch : Option Node) (h : ∀ n ∈ elseBranch, n.StandsIn source) :
      Places source (Node.StandsIn source)
        (do return .conditional (← spanFrom start) condition thenBranch elseBranch) := by
    refine (spanFrom_places hstart).bind fun span hspan => .pure (standsIn_of hspan ?_)
    simpa [Node.children] using ⟨hc, ht, h⟩
  refine (atKeyword_places _).bind fun there _ => ?_
  dsimp only
  split_ifs
  · refine advance_places.bind fun _ _ => he.bind fun n hn => (Places.pure rfl).bind ?_
    rintro _ rfl
    exact done _ fun m hm => by cases hm; exact hn
  · refine (Places.pure rfl).bind ?_
    rintro _ rfl
    exact done _ fun m hm => by cases hm

theorem conditional_places : Places source (Node.StandsIn source) (conditional expression) := by
  refine (keyword_places _).bind fun start hstart => he.bind fun condition hc => ?_
  have rest (n : Node) (hn : n.StandsIn source) := elseBranch_places he hstart hc hn
  refine (atKeyword_places _).bind fun _ _ => (atDelimiter_places _).bind fun _ _ => ?_
  dsimp only
  split_ifs
  · exact advance_places.bind fun _ _ => he.bind rest
  · exact (blockNode_places he).bind rest
  · exact (unexpected_places _).bind rest

omit he in
theorem parameter_places :
    Places source (fun p => (Node.parameter p).StandsIn source) parameter := by
  refine (peek_places 0).bind fun t _ => ?_
  split
  · refine advance_places.bind fun start hstart => declaredType_places.bind fun _ _ => ?_
    exact (spanFrom_places hstart).bind fun span hspan => .pure (standsIn_of hspan nofun)
  · exact unexpected_places _

theorem functionBody_places {start : Token} {name : Option String} {params : List Param}
    {returns : Option Ty} (hstart : start.StandsIn source)
    (hp : ∀ p ∈ params, (Node.parameter p).StandsIn source) :
    Places source (Node.StandsIn source) (functionBody expression start name params returns) := by
  refine (atDelimiter_places _).bind fun there _ => ?_
  split_ifs
  · refine (block_places he).bind fun body hbody => (spanFrom_places hstart).bind fun span hspan => ?_
    refine .pure (standsIn_of hspan fun m hm => ?_)
    rcases List.mem_append.mp hm with hm | hm
    · obtain ⟨p, there, rfl⟩ := List.mem_map.mp hm
      exact hp p there
    · obtain rfl := List.mem_singleton.mp hm
      exact standsIn_of hbody.1 hbody.2
  · exact unexpected_places _

theorem functionFrom_places {start : Token} (name : Option String)
    (hstart : start.StandsIn source) :
    Places source (Node.StandsIn source) (functionFrom expression start name) := by
  refine (delimiter_places _).bind fun _ _ => listed_places parameter_places fun params hp => ?_
  refine (delimiter_places _).bind fun _ _ => (atOperator_places _).bind fun there _ => ?_
  dsimp only
  split_ifs
  · refine advance_places.bind fun _ _ => type_places.bind fun t _ => ?_
    exact (Places.pure trivial).bind fun _ (_ : True) => functionBody_places he hstart hp
  · exact (Places.pure trivial).bind fun _ (_ : True) => functionBody_places he hstart hp

theorem function_places : Places source (Node.StandsIn source) (function expression) := by
  rw [function_eq]
  refine (keyword_places _).bind fun start hstart => (peek_places 0).bind fun t _ => ?_
  dsimp only
  split_ifs
  · refine advance_places.bind fun _ _ => ?_
    exact (Places.pure trivial).bind fun _ (_ : True) => functionFrom_places he _ hstart
  · exact (Places.pure trivial).bind fun _ (_ : True) => functionFrom_places he _ hstart

theorem return_places : Places source (Node.StandsIn source) (return_ expression) := by
  refine (keyword_places _).bind fun start hstart => (peek_places 0).bind fun t _ => ?_
  dsimp only
  split_ifs
  · refine he.bind fun n hn => (Places.pure rfl).bind ?_
    rintro _ rfl
    refine (spanFrom_places hstart).bind fun span hspan => .pure (standsIn_of hspan ?_)
    exact List.forall_mem_singleton.mpr hn
  · refine (Places.pure rfl).bind ?_
    rintro _ rfl
    exact (spanFrom_places hstart).bind fun span hspan => .pure (standsIn_of hspan nofun)

theorem define_places : Places source (Node.StandsIn source) (define expression) := by
  refine (keyword_places _).bind fun start hstart => (peek_places 0).bind fun t _ => ?_
  split
  · refine advance_places.bind fun _ _ => declaredType_places.bind fun _ _ => ?_
    refine (operator_places _).bind fun _ _ => he.bind fun value hv => ?_
    refine (spanFrom_places hstart).bind fun span hspan => .pure (standsIn_of hspan ?_)
    exact List.forall_mem_singleton.mpr hv
  · exact unexpected_places _

theorem primary_places : Places source (Node.StandsIn source) (primary expression) := by
  refine (peek_places 0).bind fun t ht => ?_
  have leaf {n : Node} (hn : n.span = some t.span) (hl : n.children = []) :
      Places source (Node.StandsIn source) (do let _ ← advance; return n) :=
    advance_places.bind fun _ _ => .pure (standsIn_leaf ht.span hn hl)
  dsimp only
  split
  · exact leaf rfl rfl
  · exact leaf rfl rfl
  · next parts hc =>
    have hparts := ht.content
    rw [hc] at hparts
    exact advance_places.bind fun _ _ => string_places he ht.span hparts
  · exact leaf rfl rfl
  · exact leaf rfl rfl
  · split_ifs
    · exact parenthesized_places he
    · exact substitution_places he
    · exact blockNode_places he
    · exact unexpected_places _
  · split_ifs
    · exact leaf rfl rfl
    · exact conditional_places he
    · exact function_places he
    · exact return_places he
    · exact define_places he
    · exact unexpected_places _
  · exact unexpected_places _

/-! ### Commands and calls -/

theorem argument_places : Places source (Node.StandsIn source) (argument expression) := by
  refine (peek_places 0).bind fun t ht => ?_
  split_ifs
  · exact advance_places.bind fun _ _ => .pure (standsIn_leaf ht.span rfl rfl)
  · exact parenthesized_places he
  · exact primary_places he

omit he in
theorem atBinding_places : Places source (fun _ => True) atBinding := by
  refine (peek_places 0).bind fun key _ => ?_
  split_ifs
  · refine (peek_places 1).bind fun eq _ => ?_
    split_ifs
    · exact (peek_places 2).bind fun value _ => .pure trivial
    · exact .pure trivial
  · exact .pure trivial

theorem binding_places :
    Places source (fun b => (Node.binding b).StandsIn source) (binding expression) := by
  refine advance_places.bind fun key hkey => advance_places.bind fun _ _ => ?_
  refine (argument_places he).bind fun value hv => (spanFrom_places hkey).bind fun span hspan => ?_
  exact .pure (standsIn_of hspan (List.forall_mem_singleton.mpr hv))

theorem callArguments_places :
    Places source (fun ns => ∀ n ∈ ns, n.StandsIn source) (callArguments expression) := by
  refine (delimiter_places _).bind fun _ _ => listed_places he fun args hargs => ?_
  exact (delimiter_places _).bind fun _ _ => .pure hargs

theorem prefixes_places :
    Places source (fun bs => ∀ b ∈ bs, (Node.binding b).StandsIn source)
      (prefixes expression) := by
  refine many_places (atBinding_places.bind fun there _ => ?_)
  split_ifs
  · exact (binding_places he).bind fun b hb => .pure fun c hc => by cases hc; exact hb
  · exact .pure nofun

theorem arguments_places :
    Places source (fun ns => ∀ n ∈ ns, n.StandsIn source) (arguments expression) := by
  refine many_places ((peek_places 0).bind fun t _ => ?_)
  split_ifs
  · exact (argument_places he).bind fun n hn => .pure fun m hm => by cases hm; exact hn
  · exact .pure nofun

theorem named_places {start : Token} (name : Token) {env : List EnvBinding}
    (hstart : start.StandsIn source) (henv : ∀ b ∈ env, (Node.binding b).StandsIn source) :
    Places source (Node.StandsIn source) (named expression start name env) := by
  have made (args : List Node) (h : ∀ n ∈ args, n.StandsIn source) :
      Places source (Node.StandsIn source)
        (do return .command (← spanFrom start) env name.lexeme args) := by
    refine (spanFrom_places hstart).bind fun span hspan => .pure (standsIn_of hspan fun m hm => ?_)
    rcases List.mem_append.mp hm with hm | hm
    · obtain ⟨b, hb, rfl⟩ := List.mem_map.mp hm
      exact henv b hb
    · exact h m hm
  refine (peek_places 0).bind fun next _ => ?_
  dsimp only
  split_ifs
  · exact (callArguments_places he).bind made
  · exact (arguments_places he).bind made

theorem command_places {start : Token} (hstart : start.StandsIn source) :
    Places source (Node.StandsIn source) (command expression start) := by
  refine (prefixes_places he).bind fun env henv => (peek_places 0).bind fun t ht => ?_
  split_ifs
  · exact advance_places.bind fun name _ => named_places he name hstart henv
  · exact .throw ht.span.1

theorem application_places : Places source (Node.StandsIn source) (application expression) := by
  rw [application_eq]
  refine (peek_places 0).bind fun start hstart => ?_
  split_ifs
  · exact command_places he hstart
  · exact primary_places he

theorem postfixCalls_places : Places source (Node.StandsIn source) (postfixCalls expression) := by
  refine (peek_places 0).bind fun start hstart => (application_places he).bind fun callee hc => ?_
  refine iterate_places (fun callee hc => (atDelimiter_places _).bind fun there _ => ?_) hc
  split_ifs
  · refine (callArguments_places he).bind fun args hargs => ?_
    refine (spanFrom_places hstart).bind fun span hspan => .pure fun n hn => ?_
    cases hn
    exact standsIn_of hspan (List.forall_mem_cons.mpr ⟨hc, hargs⟩)
  · exact .pure nofun

/-! ### Operators -/

theorem signed_places : Places source (Node.StandsIn source) (signed expression) := by
  have sign : Places source (fun r => ∀ t ∈ r, t.StandsIn source) (do
      if (← atOperator "-") || (← atOperator "!") then return some (← advance) else return none) := by
    refine (atOperator_places _).bind fun _ _ => (atOperator_places _).bind fun _ _ => ?_
    split_ifs
    · exact advance_places.bind fun t ht => .pure fun u hu => by cases hu; exact ht
    · exact .pure nofun
  refine (many_places sign).bind fun signs hs => (postfixCalls_places he).bind fun operand ho => ?_
  refine foldrM_places ho fun t ht operand ho => ?_
  refine (spanFrom_places (hs t ht)).bind fun span hspan => .pure (standsIn_of hspan ?_)
  exact List.forall_mem_singleton.mpr ho

omit he

theorem atOneOf_places (ops : List BinaryOperator) :
    Places source (fun _ => True) (atOneOf ops) :=
  (peek_places 0).bind fun _ _ => .pure trivial

theorem standsIn_binary {span : Option Span} {left right : Node} (op : BinaryOperator)
    (hspan : InText source span) (hl : left.StandsIn source) (hr : right.StandsIn source) :
    (Node.binary span op left right).StandsIn source :=
  standsIn_of hspan (List.forall_mem_cons.mpr ⟨hl, List.forall_mem_singleton.mpr hr⟩)

variable {operand : Parser Node} (ho : Places source (Node.StandsIn source) operand)
include ho

theorem chain_places (ops : List BinaryOperator) :
    Places source (Node.StandsIn source) (chain ops operand) := by
  refine (peek_places 0).bind fun start hstart => ho.bind fun first hf => ?_
  refine iterate_places (fun left hl => (atOneOf_places ops).bind fun there _ => ?_) hf
  split_ifs
  · refine advance_places.bind fun op _ => ho.bind fun right hr => ?_
    refine (spanFrom_places hstart).bind fun span hspan => .pure fun n hn => ?_
    cases hn
    exact standsIn_binary _ hspan hl hr
  · exact .pure nofun

theorem comparison_places : Places source (Node.StandsIn source) (comparison operand) := by
  refine (peek_places 0).bind fun start hstart => ho.bind fun left hl => ?_
  refine (atOneOf_places _).bind fun there _ => ?_
  split_ifs
  · refine advance_places.bind fun op _ => ho.bind fun right hr => ?_
    refine (spanFrom_places hstart).bind fun span hspan => (atOneOf_places _).bind fun again _ => ?_
    split_ifs
    · exact (peek_places 0).bind fun t ht => .throw ht.span.1
    · exact .pure (standsIn_binary _ hspan hl hr)
  · exact .pure hl

theorem operation_places : Places source (Node.StandsIn source) (operation operand) :=
  chain_places (chain_places (comparison_places (chain_places (chain_places ho _) _)) _) _

end

/-! ### Expressions -/

theorem expressionWith_places {expression : Parser Node}
    (he : Places source (Node.StandsIn source) expression) :
    Places source (Node.StandsIn source) (expressionWith expression) := by
  have operations := operation_places (signed_places he)
  refine (peek_places 0).bind fun t _ => ?_
  split_ifs
  · exact define_places he
  · split
    · refine (peek_places 1).bind fun next _ => ?_
      split_ifs
      · refine advance_places.bind fun start hstart => advance_places.bind fun _ _ => ?_
        refine he.bind fun value hv => (spanFrom_places hstart).bind fun span hspan => ?_
        exact .pure (standsIn_of hspan (List.forall_mem_singleton.mpr hv))
      · exact operations
    · exact operations

theorem expressionUpTo_places (depth : Nat) :
    Places source (Node.StandsIn source) (expressionUpTo depth) := by
  induction depth with
  | zero => exact .throw trivial
  | succ depth ih => exact expressionWith_places ih

end Parser

/-- What reading a text gives or stops at stands in it. -/
theorem parseEntries_standsIn (source : List Char) (openEnded : Bool) :
    match parseEntries source openEnded with
    | .ok ns => ∀ n ∈ ns, n.StandsIn source
    | .error stop => stop.StandsIn source := by
  have stream := Stream.standsIn_ofLexed (View.standsIn_whole source).tokens openEnded 0
  have found := Parser.entries_places (Parser.expressionUpTo_places (source.length + 1)) none _ stream
  unfold parseEntries
  unfold tokenize
  generalize (Parser.entries _ none).run _ = r at found ⊢
  cases r with
  | error stop => exact found
  | ok r => exact found.1

end Sigil
