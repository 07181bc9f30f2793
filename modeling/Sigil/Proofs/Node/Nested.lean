import Sigil.Proofs.Node.Placed
import Sigil.Proofs.Token.Laid

/-!
# Spans nest

The nodes right below a node stand one behind the other within its span, and so
it goes on below them (`Node.Nested`), if all is read from a text that is
contained; in any case no span ends before it starts (`Node.Forward`). The tokens
of a text stand in order, and so do nodes that are read from them one after the
other (`Stream.Gains.trans`); a node that is made of these has the span from the
first token that was read to the last (`Stream.Since.made`).
-/

namespace Sigil

/-! ## Nodes one behind the other -/

namespace Node

variable {lo lo' mid mid' hi hi' : Nat} {n : Node} {ns ms : List Node}

/-- Nodes stand one behind the other between two offsets. -/
def Row (hi : Nat) : Nat → List Node → Prop
  | _, [] => True
  | lo, n :: ns => ∃ s, n.span = some s ∧ s.Between lo hi ∧ Row hi s.stop.offset ns

/-- The nodes right below a node stand one behind the other within its span, which is not empty. -/
def Nests (n : Node) : Prop :=
  ∃ s, n.span = some s ∧ s.start.offset < s.stop.offset ∧
    Row s.stop.offset s.start.offset n.children

/-- The spans of a node and of all nodes below it nest. -/
def Nested (n : Node) : Prop :=
  ∀ m ∈ n.walk, m.Nests

/-- A node and all nodes below it have spans, which do not end before they start. -/
def Forward (n : Node) : Prop :=
  n.Spanned fun span => ∃ s, span = some s ∧ s.start.offset ≤ s.stop.offset

/-- Nodes stand one behind the other between two offsets. If this is asked for, what is below them
does too, and their spans nest. -/
structure Stand (enclosed : Prop) (lo hi : Nat) (ns : List Node) : Prop where
  row : Row hi lo ns
  forward : ∀ n ∈ ns, n.Forward
  nests : enclosed → ∀ n ∈ ns, n.Nested
  holds : enclosed → ∀ n ∈ ns, ∀ m ∈ n.walk, ∃ s, m.span = some s ∧ s.Between lo hi

theorem nested_iff : n.Nested ↔ n.Nests ∧ ∀ m ∈ n.children, m.Nested := by
  unfold Nested
  rw [walk_eq, List.forall_mem_cons]
  refine and_congr_right fun _ => ⟨fun h m hm k hk => ?_, fun h k hk => ?_⟩
  · exact h k (List.mem_flatMap.mpr ⟨m, hm, hk⟩)
  · obtain ⟨m, hm, hk⟩ := List.mem_flatMap.mp hk
    exact h m hm k hk

theorem Row.mono (h : Row hi lo ns) (hlo : lo' ≤ lo) (hhi : hi ≤ hi') : Row hi' lo' ns := by
  induction ns generalizing lo lo' with
  | nil => trivial
  | cons n ns ih =>
    obtain ⟨s, span, between, rest⟩ := h
    exact ⟨s, span, between.mono hlo hhi, ih rest (Nat.le_refl _)⟩

theorem Row.between (h : Row hi lo ns) : ∀ n ∈ ns, ∃ s, n.span = some s ∧ s.Between lo hi := by
  induction ns generalizing lo with
  | nil => exact List.forall_mem_nil _
  | cons n ns ih =>
    obtain ⟨s, span, between, rest⟩ := h
    exact List.forall_mem_cons.mpr ⟨⟨s, span, between⟩, ih (rest.mono
      (between.1.trans between.2.1.le) (Nat.le_refl hi))⟩

/-- Of two nodes the first ends before the second starts. -/
theorem Row.pairwise (h : Row hi lo ns) : ns.Pairwise fun a b =>
    ∃ s t, a.span = some s ∧ b.span = some t ∧ s.stop.offset ≤ t.start.offset := by
  induction ns generalizing lo with
  | nil => exact .nil
  | cons n ns ih =>
    obtain ⟨s, span, -, rest⟩ := h
    refine .cons (fun m hm => ?_) (ih rest)
    obtain ⟨t, span', between⟩ := rest.between m hm
    exact ⟨s, t, span, span', between.1⟩

theorem Row.append (h : Row mid lo ns) (k : Row hi mid' ms) (hlo : lo ≤ mid') (hmid : mid ≤ mid')
    (hhi : mid ≤ hi) : Row hi lo (ns ++ ms) := by
  induction ns generalizing lo with
  | nil => exact k.mono hlo (Nat.le_refl hi)
  | cons n ns ih =>
    obtain ⟨s, span, between, rest⟩ := h
    exact ⟨s, span, between.mono (Nat.le_refl lo) hhi, ih rest (between.2.2.trans hmid)⟩

namespace Stand

variable {enclosed : Prop}

theorem nested (h : Stand True lo hi ns) : ∀ n ∈ ns, n.Nested :=
  h.nests trivial

theorem inside (h : Stand True lo hi ns) :
    ∀ n ∈ ns, ∀ m ∈ n.walk, ∃ s, m.span = some s ∧ s.Between lo hi :=
  h.holds trivial

theorem nil (lo hi : Nat) : Stand enclosed lo hi [] :=
  ⟨trivial, List.forall_mem_nil _, fun _ => List.forall_mem_nil _, fun _ => List.forall_mem_nil _⟩

theorem mono (h : Stand enclosed lo hi ns) (hlo : lo' ≤ lo) (hhi : hi ≤ hi') :
    Stand enclosed lo' hi' ns :=
  ⟨h.row.mono hlo hhi, h.forward, h.nests, fun within n hn m hm =>
    (h.holds within n hn m hm).imp fun _ => And.imp_right fun between => between.mono hlo hhi⟩

theorem append (h : Stand enclosed lo mid ns) (k : Stand enclosed mid' hi ms) (hlo : lo ≤ mid')
    (hmid : mid ≤ mid') (hhi : mid ≤ hi) : Stand enclosed lo hi (ns ++ ms) :=
  ⟨h.row.append k.row hlo hmid hhi, List.forall_mem_append.mpr ⟨h.forward, k.forward⟩,
    fun within => List.forall_mem_append.mpr ⟨h.nests within, k.nests within⟩,
    fun within => List.forall_mem_append.mpr ⟨(h.mono (Nat.le_refl lo) hhi).holds within,
      (k.mono hlo (Nat.le_refl hi)).holds within⟩⟩

/-- A node with a span. If this is asked for, it is one around the nodes right below it. -/
theorem around {s : Span} (below : ∀ m ∈ n.children, m.Forward)
    (h : enclosed → Stand enclosed s.start.offset s.stop.offset n.children)
    (span : n.span = some s) (between : s.Between lo hi) : Stand enclosed lo hi [n] := by
  refine ⟨⟨s, span, between, trivial⟩, List.forall_mem_singleton.mpr
    (spanned_iff.mpr ⟨⟨s, span, between.2.1.le⟩, below⟩), fun within =>
    List.forall_mem_singleton.mpr (nested_iff.mpr ⟨⟨s, span, between.2.1, (h within).row⟩,
      (h within).nests within⟩), fun within => List.forall_mem_singleton.mpr ?_⟩
  rw [walk_eq, List.forall_mem_cons, List.forall_mem_flatMap]
  exact ⟨⟨s, span, between⟩, ((h within).mono between.1 between.2.2).holds within⟩

theorem lt (h : Stand enclosed lo hi ns) (some : ns ≠ []) : lo < hi := by
  obtain ⟨n, ns, rfl⟩ := List.exists_cons_of_ne_nil some
  obtain ⟨s, -, between, -⟩ := h.row
  exact between.1.trans_lt (between.2.1.trans_le between.2.2)

end Stand

end Node

/-! ## Reading from one place to another -/

/-- Where the last of some tokens ends, or where there would be one. -/
def Token.lastStop (lo : Nat) (ts : List Token) : Nat :=
  (ts.getLast?.map (·.span.stop.offset)).getD lo

theorem Token.lastStop_cons (lo : Nat) (t : Token) (ts : List Token) :
    lastStop lo (t :: ts) = lastStop t.span.stop.offset ts := by
  rw [lastStop, lastStop, List.getLast?_cons]
  cases ts.getLast? <;> rfl

/-- Behind some of the tokens. -/
theorem Token.Laid.behind {enclosed : Prop} {lo hi : Nat} {read ts : List Token}
    (h : Laid enclosed hi lo (read ++ ts)) :
    lo ≤ lastStop lo read ∧ Laid enclosed hi (lastStop lo read) ts := by
  induction read generalizing lo with
  | nil => exact ⟨Nat.le_refl lo, h⟩
  | cons x read ih =>
    obtain ⟨ordered, sited, rest⟩ := h
    obtain ⟨le, later⟩ := ih rest
    rw [lastStop_cons]
    exact ⟨ordered.trans (sited.ordered.trans le), later⟩

namespace Stream

variable {enclosed : Prop} {base limit : Nat} {s t u : Stream} {x : Token}
  {read more : List Token} {n : Node} {ns ms : List Node}

/-- Where the last token that was read ends, or where reading started. -/
def floor (base : Nat) (s : Stream) : Nat :=
  (s.previous.map (·.span.stop.offset)).getD base

/-- Where the next token starts. -/
def edge (base : Nat) (s : Stream) : Nat :=
  (s.ahead.head?.map (·.span.start.offset)).getD (s.floor base)

/-- The tokens ahead stand one behind the other, behind what was read, and the last of them is the
end of the text, unless there is a fault in it. -/
structure Laid (enclosed : Prop) (base limit : Nat) (s : Stream) : Prop where
  tokens : Token.Laid enclosed limit (s.floor base) s.ahead
  ends : s.error = none → ∃ z, s.ahead.getLast? = some z ∧ z.content = .endOfInput

/-- These tokens were read from `s`, and `t` is left. -/
structure Took (read : List Token) (s t : Stream) : Prop where
  ahead : s.ahead = read ++ t.ahead
  previous : t.previous = read.getLast?.or s.previous
  error : t.error = s.error
  real : ∀ x ∈ read, x.content ≠ .endOfInput

theorem Laid.floor_le (h : s.Laid enclosed base limit) : s.floor base ≤ s.edge base := by
  have tokens := h.tokens
  unfold edge
  cases hs : s.ahead with
  | nil => exact Nat.le_refl _
  | cons x xs =>
    rw [hs] at tokens
    exact tokens.1

theorem Laid.floor_le_limit (h : s.Laid enclosed base limit) : s.floor base ≤ limit :=
  h.tokens.le

/-- What comes behind the next token comes next when that is read. -/
theorem Laid.next_pop (h : s.Laid enclosed base limit) {y : Token} (hx : s.Next x)
    (real : x.content ≠ .endOfInput) (hy : s.peek 1 = .ok y) : (s.pop x).Next y := by
  refine Stream.next_pop hx real hy fun none => ?_
  obtain ⟨xs, ahead⟩ := hx.cons real
  rw [Stream.pop, if_neg real, ahead] at none
  obtain rfl : xs = [] := none
  -- the token would be the last, and there is no more to see in a text with a fault
  cases hs : s.error with
  | some e =>
    have inside := length_of_peek hy (by rw [hs]; rfl)
    rw [ahead] at inside
    exact absurd inside (Nat.lt_irrefl 1)
  | none =>
    obtain ⟨z, last, ended⟩ := h.ends hs
    rw [ahead] at last
    cases last
    exact absurd ended real

theorem edge_of_next (hx : s.Next x) (real : x.content ≠ .endOfInput) :
    s.edge base = x.span.start.offset := by
  obtain ⟨xs, ahead⟩ := hx.cons real
  rw [edge, ahead]
  rfl

namespace Took

theorem refl (s : Stream) : s.Took [] s :=
  ⟨rfl, rfl, rfl, List.forall_mem_nil _⟩

theorem trans (h : s.Took read t) (k : t.Took more u) : s.Took (read ++ more) u := by
  refine ⟨by rw [h.ahead, k.ahead, List.append_assoc], ?_, k.error.trans h.error,
    List.forall_mem_append.mpr ⟨h.real, k.real⟩⟩
  rw [k.previous, h.previous, List.getLast?_append, Option.or_assoc]

theorem pop (hx : s.Next x) (real : x.content ≠ .endOfInput) : s.Took [x] (s.pop x) := by
  obtain ⟨xs, ahead⟩ := hx.cons real
  rw [Stream.pop, if_neg real]
  exact ⟨by simp [ahead], rfl, rfl, List.forall_mem_singleton.mpr real⟩

theorem floor_eq (h : s.Took read t) : t.floor base = Token.lastStop (s.floor base) read := by
  rw [floor, h.previous, Token.lastStop]
  cases read.getLast? <;> rfl

theorem laid (h : s.Took read t) (hs : s.Laid enclosed base limit) :
    t.Laid enclosed base limit := by
  have tokens := hs.tokens
  rw [h.ahead] at tokens
  refine ⟨by rw [h.floor_eq]; exact tokens.behind.2, fun sound => ?_⟩
  obtain ⟨z, last, ended⟩ := hs.ends (h.error ▸ sound)
  rw [h.ahead, List.getLast?_append] at last
  cases ht : t.ahead.getLast? with
  | none =>
    rw [ht, Option.none_or] at last
    exact absurd ended (h.real z (List.mem_of_getLast? last))
  | some w =>
    rw [ht, Option.some_or] at last
    exact ⟨z, last, ended⟩

theorem floor_le (h : s.Took read t) (hs : s.Laid enclosed base limit) :
    s.floor base ≤ t.floor base := by
  have tokens := hs.tokens
  rw [h.ahead] at tokens
  rw [h.floor_eq]
  exact tokens.behind.1

theorem edge_lt (h : s.Took read t) (hs : s.Laid enclosed base limit) (some : read ≠ []) :
    s.edge base < t.floor base := by
  obtain ⟨x, read, rfl⟩ := List.exists_cons_of_ne_nil some
  have ahead := h.ahead
  rw [List.cons_append] at ahead
  have first := h.real x List.mem_cons_self
  rw [edge_of_next (next_of_ahead ahead) first, h.floor_eq]
  have tokens := hs.tokens
  rw [ahead] at tokens
  rw [Token.lastStop_cons]
  exact (tokens.2.1.nonempty first).trans_le tokens.2.2.behind.1

theorem edge_le (h : s.Took read t) (hs : s.Laid enclosed base limit) :
    s.edge base ≤ t.edge base := by
  by_cases none : read = []
  · subst none
    rw [edge, edge, h.floor_eq, h.ahead]
    exact Nat.le_refl _
  · exact (h.edge_lt hs none).le.trans (h.laid hs).floor_le

end Took

/-- Tokens were read from `s`, and `t` is left; these nodes stand one behind the other in what was
read. -/
structure Gains (enclosed : Prop) (base : Nat) (s t : Stream) (ns : List Node) : Prop where
  took : ∃ read, s.Took read t
  stand : Node.Stand enclosed (s.edge base) (t.floor base) ns

namespace Gains

theorem refl (base : Nat) (s : Stream) : s.Gains enclosed base s [] :=
  ⟨⟨[], .refl s⟩, .nil _ _⟩

theorem pop (base : Nat) (hx : s.Next x) (real : x.content ≠ .endOfInput) :
    s.Gains enclosed base (s.pop x) [] :=
  ⟨⟨[x], .pop hx real⟩, .nil _ _⟩

theorem trans (hs : s.Laid enclosed base limit) (h : s.Gains enclosed base t ns)
    (k : t.Gains enclosed base u ms) : s.Gains enclosed base u (ns ++ ms) := by
  obtain ⟨⟨read, took⟩, stand⟩ := h
  obtain ⟨⟨more, took'⟩, stand'⟩ := k
  have ht := took.laid hs
  exact ⟨⟨_, took.trans took'⟩, stand.append stand' (took.edge_le hs) ht.floor_le
    (took'.floor_le ht)⟩

theorem laid (h : s.Gains enclosed base t ns) (hs : s.Laid enclosed base limit) :
    t.Laid enclosed base limit :=
  let ⟨_, took⟩ := h.took
  took.laid hs

end Gains

/-- A token or more were read from `s`, where tokens stand in order, and `t` is left; these nodes
stand one behind the other in what was read. -/
structure Since (enclosed : Prop) (base limit : Nat) (s t : Stream) (ns : List Node) : Prop where
  laid : s.Laid enclosed base limit
  gains : s.Gains enclosed base t ns
  begun : s.edge base < t.floor base

namespace Since

/-- A token was read, behind what may be nothing. -/
theorem behind (hs : s.Laid enclosed base limit) (h : s.Gains enclosed base t ns) (hx : t.Next x)
    (real : x.content ≠ .endOfInput) : s.Since enclosed base limit (t.pop x) ns := by
  obtain ⟨read, took⟩ := h.took
  have more := h.trans hs (.pop base hx real)
  rw [List.append_nil] at more
  exact ⟨hs, more, (took.edge_le hs).trans_lt
    ((Took.pop hx real).edge_lt (took.laid hs) (List.cons_ne_nil _ _))⟩

/-- A token was read. -/
theorem first (hs : s.Laid enclosed base limit) (hx : s.Next x) (real : x.content ≠ .endOfInput) :
    s.Since enclosed base limit (s.pop x) [] :=
  behind hs (.refl base s) hx real

/-- A node was read, or more than one. -/
theorem nodes (hs : s.Laid enclosed base limit) (h : s.Gains enclosed base t ns) (some : ns ≠ []) :
    s.Since enclosed base limit t ns :=
  ⟨hs, h, h.stand.lt some⟩

theorem node (hs : s.Laid enclosed base limit) (h : s.Gains enclosed base t [n]) :
    s.Since enclosed base limit t [n] :=
  .nodes hs h (List.cons_ne_nil n [])

theorem later (h : s.Since enclosed base limit t ns) : t.Laid enclosed base limit :=
  h.gains.laid h.laid

theorem trans (h : s.Since enclosed base limit t ns) (k : t.Gains enclosed base u ms) :
    s.Since enclosed base limit u (ns ++ ms) :=
  let ⟨_, took⟩ := k.took
  ⟨h.laid, h.gains.trans h.laid k, h.begun.trans_le (took.floor_le h.later)⟩

/-- One more token was read. -/
theorem pop (h : s.Since enclosed base limit t ns) (hx : t.Next x) (real : x.content ≠ .endOfInput) :
    s.Since enclosed base limit (t.pop x) ns := by
  have more := h.trans (.pop base hx real)
  rwa [List.append_nil] at more

/-- The first token that was read. -/
theorem took (h : s.Since enclosed base limit t ns) (hx : s.Next x) :
    ∃ read, s.Took (x :: read) t := by
  obtain ⟨read, took⟩ := h.gains.took
  obtain ⟨z, read, rfl⟩ : ∃ z read', read = z :: read' := by
    refine List.exists_cons_of_ne_nil fun none => ?_
    subst none
    have same : t.floor base = s.floor base := took.floor_eq
    have := h.begun
    have := h.laid.floor_le
    omega
  have ahead := took.ahead
  rw [List.cons_append] at ahead
  cases hx.symm.trans (next_of_ahead ahead)
  exact ⟨read, took⟩

/-- The first token and the last one. -/
theorem ends (h : s.Since enclosed base limit t ns) (hx : s.Next x) :
    s.edge base = x.span.start.offset ∧
      ∃ y, t.previous = some y ∧ t.floor base = y.span.stop.offset := by
  obtain ⟨read, took⟩ := h.took hx
  refine ⟨edge_of_next hx (took.real x List.mem_cons_self), ?_⟩
  have previous := took.previous
  rw [List.getLast?_cons, Option.some_or] at previous
  refine ⟨_, previous, ?_⟩
  rw [floor, previous]
  rfl

/-- A node with the span of what was read, in which the nodes right below it stand. -/
theorem made (h : s.Since enclosed base limit t n.children) (hx : s.Next x)
    (span : n.span = some ⟨x.span.start, (t.previous.getD x).span.stop⟩) :
    s.Since enclosed base limit t [n] := by
  obtain ⟨start, y, previous, stop⟩ := h.ends hx
  rw [previous, Option.getD_some] at span
  have stand := h.gains.stand
  have begun := h.begun
  rw [start, stop] at stand begun
  refine .node h.laid ⟨h.gains.took, ?_⟩
  rw [start, stop]
  exact .around stand.forward (fun _ => stand) span ⟨Nat.le_refl _, begun, Nat.le_refl _⟩

end Since

/-- The stream of a view, which encloses its tokens and what is read within them if this is asked
for. -/
theorem laid_ofLexed (v : View) (contained : enclosed → v.Bounded ∧ v.Contained)
    (openEnded : Bool) : ∃ limit,
      (ofLexed v.tokens openEnded 0).Laid enclosed v.position.offset limit ∧
      (enclosed → limit = v.position.offset + v.inside.length) := by
  obtain ⟨limit, tokens, last⟩ := v.laid_tokens contained
  refine ⟨limit, ⟨tokens, fun sound => ?_⟩, last⟩
  obtain ⟨ts, -, ⟨e, hv⟩ | ⟨p, hv⟩⟩ := v.tokens_end
  · rw [hv] at sound
    cases sound
  · exact ⟨.atEnd p, by rw [hv, ofLexed, List.drop_zero, List.getLast?_concat], rfl⟩

end Stream

end Sigil
