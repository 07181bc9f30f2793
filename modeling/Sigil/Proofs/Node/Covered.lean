import Sigil.Proofs.Node.FinishingExpressions
import Sigil.Proofs.Node.Nested

/-!
# Expressions cover what was read for them

What a reader makes of the tokens that it reads are nodes that stand one behind
the other in them (`Parser.Lays`). The span of an expression is all that was
read for it, or the expression is one in parentheses, of which nothing is left
in the tree, and was read as an expression within them (`Parser.Covers`). Here
are the rules, entries, and primary expressions, for a given reader of the
expressions within; nothing is said of how readers fail.

Whether what is read in a string has to stand within the string is a parameter
(`enclosed`): it does in a contained text only, and the order of the spans does not
need it.
-/

namespace Sigil

namespace Parser

variable {α β : Type} {enclosed : Prop} {base limit : Nat} {s t u : Stream} {x : Token}
  {ns : List Node}

/-! ## Rules -/

/-- Whatever the reader succeeds with is as a condition says. -/
def Yields (m : Parser α) (s : Stream) (Q : α → Stream → Prop) : Prop :=
  ∀ a t, m.run s = .ok (a, t) → Q a t

section

variable {m : Parser α} {Q : α → Stream → Prop}

theorem Yields.mono {R : α → Stream → Prop} (h : Yields m s Q) (hQ : ∀ a t, Q a t → R a t) :
    Yields m s R :=
  fun a t ha => hQ a t (h a t ha)

/-- The reader succeeds with what it runs to. -/
theorem Yields.run (h : Yields m s Q) : Yields m s fun a t => m.run s = .ok (a, t) ∧ Q a t :=
  fun a t ha => ⟨ha, h a t ha⟩

theorem Yields.pure {a : α} (h : Q a s) : Yields (Pure.pure a) s Q := by
  rintro _ _ ⟨⟩
  exact h

theorem Yields.throw {stop : Stop} : Yields (MonadExcept.throw stop : Parser α) s Q := by
  rintro _ _ ⟨⟩

theorem Yields.bind {f : α → Parser β} {R : β → Stream → Prop}
    (h : Yields m s fun a t => Yields (f a) t R) : Yields (m >>= f) s R := by
  intro b u hb
  rw [StateT.run_bind] at hb
  obtain ⟨⟨a, t⟩, ha, hb⟩ := bind_eq_ok hb
  exact h a t ha b u hb

theorem Yields.get {Q : Stream → Stream → Prop} (h : Q s s) :
    Yields (MonadState.get : Parser Stream) s Q := by
  rintro _ _ ⟨⟩
  exact h

/-- Reading another stream on the way. -/
theorem Yields.nested {t : Stream} {Q : α × Stream → Stream → Prop}
    (h : Yields m t fun a u => Q (a, u) s) : Yields (liftM (m.run t) : Parser (α × Stream)) s Q := by
  intro r v hr
  have inner : m.run t >>= (fun r => Except.ok (r, s)) = .ok (r, v) := hr
  obtain ⟨⟨a, u⟩, ha, hv⟩ := bind_eq_ok inner
  cases hv
  exact h a u ha

theorem yields_peek {k : Nat} {Q : Token → Stream → Prop} (h : ∀ x, s.peek k = .ok x → Q x s) :
    Yields (peek k) s Q := by
  intro x t hx
  rw [run_peek] at hx
  obtain ⟨x, seen, hx⟩ := bind_eq_ok hx
  cases hx
  exact h x seen

theorem yields_next {Q : Token → Stream → Prop} (h : ∀ x, s.Next x → Q x s) :
    Yields (peek 0) s Q :=
  yields_peek h

theorem yields_unexpected {expected : Expected} : Yields (unexpected expected) s Q := by
  refine .bind (yields_peek fun x _ => .bind (.get ?_))
  split_ifs <;> exact .throw

/-- A token that was seen before. -/
theorem yields_advance {Q : Token → Stream → Prop} (hx : s.Next x) (h : Q x (s.pop x)) :
    Yields advance s Q := by
  intro y t hy
  rw [run_advance, show s.peek 0 = .ok x from hx] at hy
  cases hy
  exact h

theorem yields_test {test : Token → Bool} {Q : Bool → Stream → Prop}
    (h : ∀ x, s.Next x → Q (test x) s) : Yields (return test (← peek 0)) s Q :=
  .bind (yields_peek fun x hx => .pure (h x hx))

theorem yields_spanFrom {Q : Option Span → Stream → Prop}
    (h : Q (some ⟨x.span.start, (s.previous.getD x).span.stop⟩) s) : Yields (spanFrom x) s Q :=
  .bind (.get (.pure h))

theorem yields_iterate {step : α → Parser (Option α)} {I : α → Stream → Prop} {a : α}
    (h : ∀ a t, I a t → Yields (step a) t fun r u => I (r.getD a) u) (ha : I a s) :
    Yields (iterate step a) s I := by
  have upTo (bound : Nat) : ∀ a s, I a s → Yields (iterateUpTo step bound a) s I := by
    induction bound with
    | zero => exact fun _ _ _ => .throw
    | succ bound ih =>
      refine fun a s ha => .bind ((h a s ha).mono fun r t hr => ?_)
      cases r with
      | none => exact .pure hr
      | some b => exact ih b t hr
  exact .bind (.get (upTo _ a s ha))

end

/-! ## Readers of nodes -/

/-- The nodes that a reader reads, as `f` gives them, stand one behind the other in what it reads. -/
def Lays (enclosed : Prop) (f : α → List Node) (m : Parser α) : Prop :=
  ∀ base limit s, s.Laid enclosed base limit → Yields m s fun a t => s.Gains enclosed base t (f a)

/-- A reader that reads a token at first, of which no node is made. -/
def Starts (enclosed : Prop) (m : Parser Token) : Prop :=
  ∀ base limit s, s.Laid enclosed base limit →
    Yields m s fun x t => s.Next x ∧ s.Since enclosed base limit t []

section

variable {f : α → List Node} {m : Parser α}

/-- Reading on. -/
theorem Lays.since (hm : Lays enclosed f m) (h : s.Since enclosed base limit t ns) :
    Yields m t fun a u => s.Since enclosed base limit u (ns ++ f a) :=
  (hm base limit t h.later).mono fun _ _ gains => h.trans gains

/-- Reading on what no node is made of. -/
theorem Lays.passed (hm : Lays enclosed (fun _ => []) m) (h : s.Since enclosed base limit t ns) :
    Yields m t fun _ u => s.Since enclosed base limit u ns :=
  (hm.since h).mono fun _ _ since => by rwa [List.append_nil] at since

theorem Starts.lays {m : Parser Token} (hm : Starts enclosed m) : Lays enclosed (fun _ => []) m :=
  fun base limit s hs => (hm base limit s hs).mono fun _ _ h => h.2.gains

/-- Reading a token that has to be there. -/
theorem starts_needed {test : Token → Bool} {expected : Expected}
    (real : ∀ x, test x → x.content ≠ .endOfInput) :
    Starts enclosed ((do return test (← peek 0) : Parser Bool) >>= fun found =>
      if found then advance else unexpected expected) := by
  refine fun base limit s hs => .bind (yields_test fun x hx => ?_)
  split_ifs with found
  · exact yields_advance hx ⟨hx, .first hs hx (real x found)⟩
  · exact yields_unexpected

theorem starts_delimiter (d : String) : Starts enclosed (delimiter d) :=
  starts_needed fun _ => Token.isDelimiter_content

theorem starts_operator (o : String) : Starts enclosed (operator o) :=
  starts_needed fun _ => Token.isOperator_content

theorem starts_keyword (w : String) : Starts enclosed (keyword w) :=
  starts_needed fun _ => Token.isKeyword_content

end

/-! ### Loops -/

section

variable {f : α → List Node}

theorem lays_many {step : Parser (Option α)} (h : Lays enclosed (fun r => (r.map f).getD []) step) :
    Lays enclosed (fun as : List α => as.flatMap f) (many step) := by
  intro base limit s hs
  refine yields_iterate (I := fun (as : List α) t => s.Gains enclosed base t (as.flatMap f))
    (fun as t gains => ?_) (.refl base s)
  refine .bind ((h base limit t (gains.laid hs)).mono fun r u more => .pure ?_)
  have both := gains.trans hs more
  cases r with
  | none =>
    show s.Gains enclosed base u (as.flatMap f)
    rwa [← List.append_nil (as.flatMap f)]
  | some a =>
    show s.Gains enclosed base u ((as ++ [a]).flatMap f)
    rwa [List.flatMap_append, List.flatMap_singleton]

theorem lays_commaSeparated {item : Parser α} (h : Lays enclosed f item) :
    Lays enclosed (fun as : List α => as.flatMap f) (commaSeparated item) := by
  refine fun base limit s hs => .bind ((h base limit s hs).mono fun a t first => ?_)
  refine .bind ((lays_many (f := f) ?_ base limit t (first.laid hs)).mono fun as u rest => .pure ?_)
  · refine fun base limit s hs => .bind (yields_test fun x hx => ?_)
    split_ifs with comma
    · have since := Stream.Since.first hs hx (Token.isDelimiter_content comma)
      exact .bind (yields_advance hx (.bind ((h.since since).mono fun a u read => .pure read.gains)))
    · exact .pure (.refl base s)
  · exact first.trans hs rest

/-- Items in parentheses, of which there may be none; `rest` is what follows. -/
theorem yields_listed {item : Parser α} {rest : List α → Parser β} {Q : β → Stream → Prop}
    (h : Lays enclosed f item) (since : s.Since enclosed base limit t ns)
    (hrest : ∀ as u, s.Since enclosed base limit u (ns ++ as.flatMap f) → Yields (rest as) u Q) :
    Yields (do if ← atDelimiter ")" then Pure.pure [] >>= rest else commaSeparated item >>= rest)
      t Q := by
  refine .bind (yields_test fun x hx => ?_)
  split_ifs
  · refine .bind (.pure (hrest [] t ?_))
    rwa [List.flatMap_nil, List.append_nil]
  · exact .bind (((lays_commaSeparated h).since since).mono hrest)

end

theorem flatMap_nothing (as : List α) : as.flatMap (fun _ => ([] : List Node)) = [] :=
  List.flatMap_eq_nil_iff.mpr fun _ _ => rfl

/-! ### Types -/

theorem lays_type : Lays enclosed (fun _ => []) type := by
  have upTo (depth : Nat) : Lays enclosed (fun _ => []) (typeUpTo depth) := by
    induction depth with
    | zero => exact fun _ _ _ _ => .throw
    | succ depth ih =>
      refine fun base limit s hs => .bind (yields_next fun x hx => ?_)
      dsimp only
      split_ifs with other arrow
      · exact yields_unexpected
      all_goals
        rw [not_not] at other
        have since := Stream.Since.first hs hx (by simp [other])
        refine .bind (yields_advance hx ?_)
      · refine .bind (((starts_delimiter "(").lays.passed since).mono fun _ t since => ?_)
        refine yields_listed ih since fun as t since => ?_
        refine .bind (((starts_delimiter ")").lays.since since).mono fun _ t since => ?_)
        refine .bind (((starts_operator "->").lays.since since).mono fun _ t since => ?_)
        refine .bind ((ih.since since).mono fun _ t since => .pure ?_)
        have gains := since.gains
        rwa [flatMap_nothing] at gains
      · cases Ty.ofName? x.lexeme with
        | some ty => exact .pure since.gains
        | none => exact .throw
  exact fun base limit s hs => .bind (.get (upTo _ base limit s hs))

theorem lays_declaredType : Lays enclosed (fun _ => []) declaredType := by
  refine fun base limit s hs => .bind (yields_test fun x hx => ?_)
  split_ifs with colon
  · have since := Stream.Since.first hs hx (Token.isOperator_content colon)
    refine .bind (yields_advance hx (.bind ((lays_type.passed since).mono fun _ t since => ?_)))
    exact .pure since.gains
  · exact .pure (.refl base s)

/-! ## Nodes -/

/-- The span of a node is all that was read from one stream to another. -/
def Spells (s t : Stream) (n : Node) : Prop :=
  ∃ x y, s.Next x ∧ t.previous = some y ∧ n.span = some ⟨x.span.start, y.span.stop⟩

/-- A node was read by the reader of expressions, within what was read. -/
def Inner (expression : Parser Node) (s t : Stream) (n : Node) : Prop :=
  ∃ before u v after, s.Took before u ∧ expression.run u = .ok (n, v) ∧ v.Took after t

theorem Inner.mono {expression : Parser Node} {n : Node} {s' t' : Stream} {before after : List Token}
    (h : Inner expression s t n) (hs : s'.Took before s) (ht : t.Took after t') :
    Inner expression s' t' n :=
  let ⟨_, u, v, _, took, run, took'⟩ := h
  ⟨_, u, v, _, hs.trans took, run, took'.trans ht⟩

/-- A node was read: it stands in what was read, and its span is all of it, or it was read by the
reader of expressions. -/
def Site (enclosed : Prop) (expression : Parser Node) (base : Nat) (s t : Stream) (n : Node) :
    Prop :=
  s.Gains enclosed base t [n] ∧ (Spells s t n ∨ Inner expression s t n)

/-- The span of a node that the reader reads is all that it reads, or the node is in parentheses. -/
def Covers (enclosed : Prop) (expression m : Parser Node) : Prop :=
  ∀ base limit s, s.Laid enclosed base limit →
    Yields m s fun n t => Site enclosed expression base s t n

/-- A reader of nodes that stand in what it reads. -/
abbrev LaysNode (enclosed : Prop) (m : Parser Node) : Prop :=
  Lays enclosed (fun n => [n]) m

theorem Covers.lays {expression m : Parser Node} (h : Covers enclosed expression m) :
    LaysNode enclosed m :=
  fun base limit s hs => (h base limit s hs).mono fun _ _ site => site.1

section

variable {expression : Parser Node}

/-- A node with the span of what was read, in which the nodes right below it stand. -/
theorem site_of_since {n : Node} (h : s.Since enclosed base limit t n.children) (hx : s.Next x)
    (span : n.span = some ⟨x.span.start, (t.previous.getD x).span.stop⟩) :
    Site enclosed expression base s t n := by
  obtain ⟨-, y, previous, -⟩ := h.ends hx
  rw [previous, Option.getD_some] at span
  exact ⟨(h.made hx (by rwa [previous])).gains, .inl ⟨x, y, hx, previous, span⟩⟩

/-- A node with nothing below it, of a token. -/
theorem site_leaf {n : Node} (hs : s.Laid enclosed base limit) (hx : s.Next x)
    (real : x.content ≠ .endOfInput) (span : n.span = some x.span) (leaf : n.children = []) :
    Site enclosed expression base s (s.pop x) n := by
  have since := Stream.Since.first hs hx real
  rw [← leaf] at since
  refine site_of_since since hx ?_
  rw [span, Stream.pop]
  split_ifs <;> rfl

/-- A node is made of what was read. -/
theorem yields_made (h : s.Since enclosed base limit t ns) (hx : s.Next x) {f : Option Span → Node}
    (span : ∀ span, (f span).span = span) (children : ∀ span, (f span).children = ns) :
    Yields (do return f (← spanFrom x)) t fun n u => Site enclosed expression base s u n :=
  .bind (yields_spanFrom (.pure (site_of_since (by rwa [children]) hx (span _))))

end

section

variable {expression : Parser Node} (he : LaysNode enclosed expression)

/-! ### Entries -/

theorem lays_skipSemicolons : Lays enclosed (fun _ => []) skipSemicolons := by
  refine fun base limit s hs => .bind ((lays_many (f := fun _ => []) ?_ base limit s hs).mono
    fun as t read => .pure ?_)
  · refine fun base limit s hs => .bind (yields_test fun x hx => ?_)
    split_ifs with semi
    · exact .bind (yields_advance hx (.pure (.pop base hx (Token.isDelimiter_content semi))))
    · exact .pure (.refl base s)
  · exact flatMap_nothing as ▸ read

theorem yields_atClosing {closing : Option String} {Q : Bool → Stream → Prop} (h : ∀ b, Q b s) :
    Yields (atClosing closing) s Q := by
  cases closing with
  | none => exact .bind (yields_next fun x _ => .pure (h _))
  | some d => exact yields_test fun x _ => h _

theorem lays_endEntry (closing : Option String) : Lays enclosed (fun _ => []) (endEntry closing) := by
  refine fun base limit s hs => .bind (yields_test fun x hx => ?_)
  split_ifs with semi
  · exact .bind (yields_advance hx (.pure (.pop base hx (Token.isDelimiter_content semi))))
  · refine .bind (yields_atClosing fun b => ?_)
    split_ifs
    · exact .pure (.refl base s)
    · refine .bind (.get ?_)
      split_ifs
      · exact .pure (.refl base s)
      · exact yields_unexpected

include he

theorem yields_entry (closing : Option String) (hs : s.Laid enclosed base limit) :
    Yields (entry expression closing) s fun r t =>
      s.Gains enclosed base t r.toList ∧ ∀ n ∈ r, Inner expression s t n := by
  refine .bind ((lays_skipSemicolons base limit s hs).mono fun _ t skipped => ?_)
  refine .bind (yields_atClosing fun b => ?_)
  split_ifs
  · exact .pure ⟨skipped, fun n hn => by cases hn⟩
  · have ht := skipped.laid hs
    refine .bind ((he base limit t ht).run.mono ?_)
    rintro n u ⟨run, read⟩
    refine .bind ((lays_endEntry closing base limit u (read.laid ht)).mono fun _ v ended => .pure ?_)
    obtain ⟨before, took⟩ := skipped.took
    obtain ⟨after, took'⟩ := ended.took
    refine ⟨(skipped.trans hs read).trans hs ended, fun m hm => ?_⟩
    cases hm
    exact ⟨before, t, u, after, took, run, took'⟩

/-- The entries of a text or of a part of it stand one behind the other, and each of them was read
by the reader of expressions. -/
theorem yields_entries (closing : Option String) (hs : s.Laid enclosed base limit) :
    Yields (entries expression closing) s fun ns t =>
      s.Gains enclosed base t ns ∧ ∀ n ∈ ns, Inner expression s t n := by
  refine yields_iterate (a := []) (I := fun ns t => s.Gains enclosed base t ns ∧
    ∀ n ∈ ns, Inner expression s t n) (fun ns t inv => ?_) ⟨.refl base s, List.forall_mem_nil _⟩
  obtain ⟨gains, inner⟩ := inv
  refine .bind ((yields_entry he closing (gains.laid hs)).mono ?_)
  rintro r u ⟨more, inner'⟩
  refine .pure ?_
  have both := gains.trans hs more
  obtain ⟨before, took⟩ := gains.took
  obtain ⟨after, took'⟩ := more.took
  have kept (n : Node) (hn : n ∈ ns) := (inner n hn).mono (.refl s) took'
  cases r with
  | none => exact ⟨by rwa [Option.toList, List.append_nil] at both, kept⟩
  | some m =>
    refine ⟨both, fun n hn => ?_⟩
    rcases List.mem_append.mp hn with old | new
    · exact kept n old
    · rw [List.mem_singleton.mp new]
      exact (inner' m rfl).mono took (.refl u)

theorem lays_entries (closing : Option String) :
    Lays enclosed (fun ns => ns) (entries expression closing) :=
  fun _ _ _ hs => (yields_entries he closing hs).mono fun _ _ h => h.1

/-- The entries of a text, and their span. -/
theorem yields_program (hs : s.Laid enclosed base limit) : Yields (program expression) s fun r t =>
    s.Gains enclosed base t r.2 ∧ (∀ n ∈ r.2, Inner expression s t n) ∧
      ∃ x, s.Next x ∧ r.1 = some ⟨x.span.start, (t.previous.getD x).span.stop⟩ := by
  refine .bind (yields_next fun x hx => ?_)
  refine .bind ((yields_entries he none hs).mono fun ns t h => ?_)
  exact .bind (yields_spanFrom (.pure ⟨h.1, h.2, x, hx, rfl⟩))

/-! ### Primary expressions -/

/-- The nodes of the parts of a string. -/
theorem yields_stringParts {lo hi : Nat} {ps : List StringPart} (laid : StringPart.Laid hi lo ps)
    (contained : enclosed → ∀ w span, .substitution w span ∈ ps → w.Bounded ∧ w.Contained) :
    Yields (ps.mapM (stringPart expression)) s fun xs t => t = s ∧
      Node.Stand enclosed lo hi (Node.interpolation none xs).children := by
  induction ps generalizing lo with
  | nil => exact .pure ⟨rfl, .nil lo hi⟩
  | cons p ps ih =>
    have rest {lo : Nat} (laid : StringPart.Laid hi lo ps) := ih laid fun within w span hw =>
      contained within w span (List.mem_cons_of_mem _ hw)
    rw [List.mapM_cons]
    cases p with
    | text text =>
      refine .bind (.pure (.bind ((rest laid).mono ?_)))
      rintro xs _ ⟨rfl, stand⟩
      exact .pure ⟨rfl, stand⟩
    | «variable» name default span =>
      refine .bind (.pure (.bind ((rest laid.2).mono ?_)))
      rintro xs _ ⟨rfl, stand⟩
      have first : Node.Stand enclosed lo span.stop.offset [.reference (some span) name default] :=
        .around (List.forall_mem_nil _) (fun _ => .nil _ _) rfl
          ⟨laid.1.1, laid.1.2.1, Nat.le_refl _⟩
      exact .pure ⟨rfl, first.append stand (laid.1.1.trans laid.1.2.1.le) (Nat.le_refl _)
        laid.1.2.2⟩
    | substitution w span =>
      obtain ⟨⟨between, opened, closed⟩, laid⟩ := laid
      obtain ⟨limit, stream, ends⟩ := Stream.laid_ofLexed w
        (fun within => contained within w span List.mem_cons_self) false
      refine .bind (.bind (.nested ((yields_program he stream).mono fun r u read => ?_)))
      obtain ⟨gains, -⟩ := read
      refine .pure (.bind ((rest laid).mono ?_))
      rintro xs _ ⟨rfl, stand⟩
      have first : Node.Stand enclosed lo span.stop.offset [.substitution (some span) r.2] := by
        refine .around gains.stand.forward (fun within => ?_) rfl
          ⟨between.1, between.2.1, Nat.le_refl _⟩
        have last := (gains.laid stream).floor_le_limit
        rw [ends within] at last
        exact gains.stand.mono (opened.trans stream.floor_le) (last.trans closed)
      exact .pure ⟨rfl, first.append stand (between.1.trans between.2.1.le) (Nat.le_refl _)
        between.2.2⟩

/-- A string, behind its token. -/
theorem yields_string {ps : List StringPart} (hs : s.Laid enclosed base limit) (hx : s.Next x)
    (said : x.content = .string ps) :
    Yields (string expression x.span ps) (s.pop x) fun n t =>
      Site enclosed expression base s t n := by
  have real : x.content ≠ .endOfInput := by simp [said]
  rw [string_eq]
  split_ifs
  · exact .pure (site_leaf hs hx real rfl rfl)
  · have since := Stream.Since.first hs hx real
    obtain ⟨start, y, previous, stop⟩ := since.ends hx
    obtain ⟨xs, ahead⟩ := hx.cons real
    have tokens := hs.tokens
    rw [ahead] at tokens
    have sited := tokens.2.1
    obtain rfl : x = y := by
      rw [Stream.pop, if_neg real] at previous
      exact Option.some.inj previous
    refine .bind ((yields_stringParts he (sited.parts ps said) fun within w span hw =>
      sited.contained within ps w span said hw).mono ?_)
    rintro parts _ ⟨rfl, stand⟩
    refine .pure (site_of_since ⟨hs, ⟨since.gains.took, ?_⟩, since.begun⟩ hx ?_)
    · rw [start, stop]
      exact stand
    · rw [previous]
      rfl

theorem covers_substitution : Covers enclosed expression (substitution expression) := by
  refine fun base limit s hs => .bind ((starts_delimiter _ base limit s hs).mono ?_)
  rintro x t ⟨hx, since⟩
  refine .bind (((lays_entries he _).since since).mono fun ns u since => ?_)
  refine .bind (((starts_delimiter _).lays.passed since).mono fun _ v since => ?_)
  exact yields_made since hx (f := fun span => .substitution span ns) (fun _ => rfl) fun _ => rfl

theorem covers_parenthesized : Covers enclosed expression (parenthesized expression) := by
  refine fun base limit s hs => .bind ((starts_delimiter _ base limit s hs).mono ?_)
  rintro x t ⟨hx, since⟩
  refine .bind (yields_test fun y hy => ?_)
  split_ifs with closed
  · refine .bind (yields_advance hy ?_)
    exact yields_made (since.pop hy (Token.isDelimiter_content closed)) hx
      (f := fun span => .literal span .unit) (fun _ => rfl) fun _ => rfl
  · refine .bind ((he.since since).run.mono ?_)
    rintro n u ⟨run, since'⟩
    refine .bind (((starts_delimiter ")").lays base limit u since'.later).mono fun _ v read => ?_)
    obtain ⟨before, took⟩ := since.gains.took
    obtain ⟨after, took'⟩ := read.took
    exact .pure ⟨(since'.trans read).gains, .inr ⟨before, t, u, after, took, run, took'⟩⟩

/-- A block, as a node. -/
theorem yields_block (hs : s.Laid enclosed base limit) : Yields (block expression) s fun r t =>
    Site enclosed expression base s t (.block r.1 r.2) := by
  refine .bind ((starts_delimiter _ base limit s hs).mono ?_)
  rintro x t ⟨hx, since⟩
  refine .bind (((lays_entries he _).since since).mono fun ns u since => ?_)
  refine .bind (((starts_delimiter _).lays.passed since).mono fun _ v since => ?_)
  exact .bind (yields_spanFrom (.pure (site_of_since since hx rfl)))

theorem covers_blockNode : Covers enclosed expression (blockNode expression) :=
  fun _ _ _ hs => .bind ((yields_block he hs).mono fun _ _ site => .pure site)

theorem yields_elseBranch {condition thenBranch : Node}
    (since : s.Since enclosed base limit t [condition, thenBranch]) (hx : s.Next x) :
    Yields (elseBranch expression x condition thenBranch) t fun n u =>
      Site enclosed expression base s u n := by
  refine .bind (yields_test fun y hy => ?_)
  dsimp only
  split_ifs with other
  · refine .bind (yields_advance hy (.bind ?_))
    refine (he.since (since.pop hy (Token.isKeyword_content other))).mono fun n u since => ?_
    exact .bind (.pure (yields_made since hx (fun _ => rfl) fun _ => rfl))
  · exact .bind (.pure (yields_made since hx (fun _ => rfl) fun _ => rfl))

theorem covers_conditional : Covers enclosed expression (conditional expression) := by
  refine fun base limit s hs => .bind ((starts_keyword _ base limit s hs).mono ?_)
  rintro x t ⟨hx, since⟩
  refine .bind ((he.since since).mono fun condition u since => ?_)
  refine .bind (yields_test fun y hy => .bind (yields_test fun z hz => ?_))
  dsimp only
  split_ifs with other braced
  · refine .bind (yields_advance hy (.bind ?_))
    refine (he.since (since.pop hy (Token.isKeyword_content other))).mono fun n u since => ?_
    exact yields_elseBranch he since hx
  · exact .bind (((covers_blockNode he).lays.since since).mono fun n u since =>
      yields_elseBranch he since hx)
  · exact .bind yields_unexpected

omit he in
theorem lays_parameter : Lays enclosed (fun p => [.parameter p]) parameter := by
  refine fun base limit s hs => .bind (yields_next fun x hx => ?_)
  obtain ⟨content, lexeme, place⟩ := x
  cases content with
  | «variable» name =>
    refine .bind (yields_advance hx ?_)
    refine .bind ((lays_declaredType.passed (.first hs hx nofun)).mono fun _ t since => ?_)
    exact .bind (yields_spanFrom (.pure (since.made hx rfl).gains))
  | _ => exact yields_unexpected

theorem yields_functionBody {name : Option String} {params : List Param} {returns : Option Ty}
    (since : s.Since enclosed base limit t (params.map .parameter)) (hx : s.Next x) :
    Yields (functionBody expression x name params returns) t fun n u =>
      Site enclosed expression base s u n := by
  refine .bind (yields_test fun y hy => ?_)
  split_ifs
  · refine .bind ((yields_block he since.later).mono fun r u site => ?_)
    exact yields_made (since.trans site.1) hx (fun _ => rfl) fun _ => rfl
  · exact yields_unexpected

theorem yields_functionFrom {name : Option String} (since : s.Since enclosed base limit t [])
    (hx : s.Next x) :
    Yields (functionFrom expression x name) t fun n u => Site enclosed expression base s u n := by
  refine .bind (((starts_delimiter _).lays.passed since).mono fun _ t since => ?_)
  refine yields_listed lays_parameter since fun params t since => ?_
  rw [List.nil_append, ← List.map_eq_flatMap] at since
  refine .bind (((starts_delimiter _).lays.passed since).mono fun _ t since => ?_)
  refine .bind (yields_test fun y hy => ?_)
  dsimp only
  split_ifs with arrow
  · refine .bind (yields_advance hy (.bind ?_))
    refine (lays_type.passed (since.pop hy (Token.isOperator_content arrow))).mono fun _ u since => ?_
    exact .bind (.pure (yields_functionBody he since hx))
  · exact .bind (.pure (yields_functionBody he since hx))

theorem covers_function : Covers enclosed expression (function expression) := by
  rw [function_eq]
  refine fun base limit s hs => .bind ((starts_keyword _ base limit s hs).mono ?_)
  rintro x t ⟨hx, since⟩
  refine .bind (yields_next fun y hy => ?_)
  dsimp only
  split_ifs with word
  · have real : y.content ≠ .endOfInput := by simp [Token.isPlainWord_content word]
    exact .bind (yields_advance hy (.bind (.pure (yields_functionFrom he (since.pop hy real) hx))))
  · exact .bind (.pure (yields_functionFrom he since hx))

theorem covers_return : Covers enclosed expression (return_ expression) := by
  refine fun base limit s hs => .bind ((starts_keyword _ base limit s hs).mono ?_)
  rintro x t ⟨hx, since⟩
  refine .bind (yields_next fun y hy => ?_)
  dsimp only
  split_ifs
  · refine .bind ((he.since since).mono fun n u since => ?_)
    exact .bind (.pure (yields_made since hx (fun _ => rfl) fun _ => rfl))
  · exact .bind (.pure (yields_made since hx (fun _ => rfl) fun _ => rfl))

theorem covers_define : Covers enclosed expression (define expression) := by
  refine fun base limit s hs => .bind ((starts_keyword _ base limit s hs).mono ?_)
  rintro x t ⟨hx, since⟩
  refine .bind (yields_next fun y hy => ?_)
  obtain ⟨content, lexeme, place⟩ := y
  cases content with
  | «variable» name =>
    refine .bind (yields_advance hy ?_)
    refine .bind ((lays_declaredType.passed (since.pop hy nofun)).mono fun _ u since => ?_)
    refine .bind (((starts_operator _).lays.passed since).mono fun _ u since => ?_)
    refine .bind ((he.since since).mono fun value u since => ?_)
    exact yields_made since hx (fun _ => rfl) fun _ => rfl
  | _ => exact yields_unexpected

theorem covers_primary : Covers enclosed expression (primary expression) := by
  intro base limit s hs
  refine .bind (yields_next fun x hx => ?_)
  have leaf {n : Node} (real : x.content ≠ .endOfInput) (span : n.span = some x.span)
      (none : n.children = []) : Yields (do let _ ← advance; return n) s fun n t =>
        Site enclosed expression base s t n :=
    .bind (yields_advance hx (.pure (site_leaf hs hx real span none)))
  obtain ⟨content, lexeme, place⟩ := x
  cases content with
  | integer | float | «variable» | defaulted => exact leaf nofun rfl rfl
  | string ps => exact .bind (yields_advance hx (yields_string he hs hx rfl))
  | delimiter =>
    dsimp only
    split_ifs
    · exact covers_parenthesized he base limit s hs
    · exact covers_substitution he base limit s hs
    · exact covers_blockNode he base limit s hs
    · exact yields_unexpected
  | word =>
    dsimp only
    split_ifs
    · exact leaf nofun rfl rfl
    · exact covers_conditional he base limit s hs
    · exact covers_function he base limit s hs
    · exact covers_return he base limit s hs
    · exact covers_define he base limit s hs
    · exact yields_unexpected
  | operator | endOfInput => exact yields_unexpected

end

end Parser

end Sigil
