import Sigil.Proofs.Node.Moved

/-!
# Two scripts in one text

A script, a line with a semicolon, and another script (`joined`): if each can
be read on its own, then what is read of the whole are the entries of the
first, where they stand, and then those of the second, further on
(`parseEntries_joined`). The reader of the whole goes along with that of the
first script to its end (`Parser.entries_through`), and then with that of the
second.
-/

namespace Sigil

/-- Two scripts with a semicolon on a line of its own between them. -/
def joined (a b : List Char) : List Char :=
  a ++ '\n' :: ';' :: '\n' :: b

/-- Where the first of two scripts stands. -/
def Placement.first (b : List Char) : Placement :=
  ⟨0, 0, '\n' :: ';' :: '\n' :: b, fun _ h => by cases h; rfl⟩

/-- Where the second of two scripts stands. -/
def Placement.second (a : List Char) : Placement :=
  ⟨a.length + 3, (Position.start.after a).line + 1, [], alone.breaks⟩

theorem Placement.relabel_first (b : List Char) : (first b).relabel = .same := rfl

/-! ## Tokens -/

/-- A line break before the tokens of a view is part of the gap. -/
theorem View.tokens_break (p : Position) (cs : List Char) :
    (View.mk p ('\n' :: cs) []).tokens = (View.mk (p.step '\n') cs []).tokens := by
  refine View.tokens_congr ?_
  have blank : Lexer.gapLength false ('\n' :: cs) = Lexer.gapLength false cs + 1 := rfl
  rw [blank]
  simp [View.advance]

/-- Between the scripts there is one token, after which the second goes on. -/
theorem View.rest_first (b : List Char) (p : Position) : ∃ semi, semi.isDelimiter ";" ∧
    (View.rest (.first b) p true).tokens =
      semi :: (View.mk (((p.step '\n').step ';').step '\n') b []).tokens.tokens := by
  have none : Lexer.gapLength false (';' :: '\n' :: b) = 0 := Lexer.gapLength_gap false rfl
  have first := View.tokens_first (p := p.step '\n') [] [] ('\n' :: b) none
    (Lexer.ReadsToken.mark ('\n' :: b) [] (by decide)).read
  refine ⟨⟨.delimiter, String.ofList [';'], ⟨p.step '\n', (p.step '\n').step ';'⟩⟩,
    by simp [Token.isDelimiter], ?_⟩
  show (View.mk p ('\n' :: ';' :: '\n' :: b) []).tokens.tokens = _
  rw [View.tokens_break, ← View.tokens_break ((p.step '\n').step ';')]
  exact congrArg Lexed.tokens first

namespace Parser

section

variable {m : Placement} {limit : Nat} {c : Seam} {b : Bool} {s t : Stream}
  {expression expression' : Parser Node}

/-- Semicolons before an entry do not matter. -/
theorem run_entry_skip {semis rest : List Token} (h : ∀ x ∈ semis, x.isDelimiter ";")
    (hs : s.ahead = semis ++ rest) : ∃ s', s'.ahead = rest ∧ ∀ (e : Parser Node) closing,
      (entry e closing).run s = (entry e closing).run s' := by
  induction semis generalizing s with
  | nil => exact ⟨s, hs, fun _ _ => rfl⟩
  | cons x semis ih =>
    obtain ⟨semi, h⟩ := List.forall_mem_cons.mp h
    have next : s.Next x := Stream.next_of_ahead hs
    have left : (s.pop x).ahead = semis ++ rest := by
      rw [Stream.pop, if_neg (Token.isDelimiter_content semi), hs]
      rfl
    obtain ⟨s', ahead, same⟩ := ih h left
    refine ⟨s', ahead, fun e closing => ?_⟩
    rw [← same, run_entry, run_entry, run_skipSemicolons_pop next semi]

/-- An entry is read from both streams; or there is none before the end of the text, and the longer
one has only semicolons before what comes there. -/
theorem entry_cases (he : Mirrors m expression expression') (stalls : Stalls expression)
    (h : s.Twin m limit c b t) {r : Option Node} {u : Stream}
    (hr : (entry expression none).run s = .ok (r, u)) :
    (∃ n n' v, r = some n ∧ (entry expression' none).run t = .ok (some n', v) ∧
      EntryMirrored m limit c n n' u v) ∨
    r = none ∧ c.error = none ∧
      ∃ semis, (∀ x ∈ semis, x.isDelimiter ";") ∧ t.ahead = semis ++ c.rest := by
  rw [run_entry] at hr
  obtain ⟨⟨_, w⟩, skipped, hr⟩ := bind_eq_ok hr
  rcases skipSemicolons_cases h skipped with ⟨x, v, hx, real, twin, skipped'⟩ |
    ⟨spent, none, semis, -⟩
  · obtain ⟨y, hy, alike⟩ := twin.next hx
    obtain ⟨rfl, -⟩ := alike.real real
    have here (e : Parser Node) {w : Stream} {x : Token} (hx : w.Next x)
        (real : x.content ≠ .endOfInput) : (entryHere e none).run w =
          (do let n ← e; endEntry none; return some n : Parser (Option Node)).run w := by
      rw [entryHere, StateT.run_bind, atClosing, StateT.run_bind, run_peek, hx]
      show (if decide (x.content = .endOfInput) then _ else _ : Parser (Option Node)).run w = _
      rw [if_neg (by simpa using real)]
    rw [here expression hx real] at hr
    obtain ⟨r', v, hv, n, n', rfl, rfl, hn⟩ :=
      separated_follows he (Option.some_ne_none ";").symm twin r u hr
    refine .inl ⟨n, n', v, rfl, ?_, hn⟩
    rw [run_entry, skipped']
    show (entryHere expression' none).run _ = _
    rw [here expression' hy ((Token.content_moved x).not.mpr real), hv]
  · obtain ⟨-, hr⟩ := run_entryHere_over stalls spent hr
    cases hr
    exact .inr ⟨rfl, none, semis⟩

/-- The entries of a text are the first that are read in a longer one, which goes on behind them
after a semicolon. -/
theorem entries_through (he : Mirrors m expression expression') (stalls : Stalls expression)
    {semi : Token} {rest : List Token} (hsemi : semi.isDelimiter ";")
    (hc : c.error = none → c.rest = semi :: rest) {j : Nat} {as ns : List Node} {u : Stream}
    (hs : (iterateUpTo (collect (entry expression none)) j as).run s = .ok (ns, u))
    (h : s.Twin m limit c b t) :
    ∃ ms v, ns = as ++ ms ∧ ms.length < j ∧ v.ahead = rest ∧ c.error = none ∧
      (∀ n ∈ ms, ∀ span, n.span = some span → span.stop.offset ≤ limit) ∧
      ∀ i as', (iterateUpTo (collect (entry expression' none)) (ms.length + (i + 1)) as').run t =
        (iterateUpTo (collect (entry expression' none)) (i + 1)
          (as' ++ Node.relabelAll m.relabel ms)).run v := by
  induction j generalizing as b s t with
  | zero => cases hs
  | succ j ih =>
    rw [run_iterateUpTo_succ, run_collect] at hs
    obtain ⟨⟨r, w⟩, hr, hs⟩ := bind_eq_ok (bind_assoc (m := Except Stop) .. ▸ hs)
    rcases entry_cases he stalls h hr with
      ⟨n, n', v, rfl, hv, hn, near, twin | ⟨goesOn, spent, ahead⟩⟩ |
      ⟨rfl, sound, semis, all, ahead⟩
    · obtain ⟨ms, x, rfl, length, hx, sound, nears, again⟩ := ih hs twin
      refine ⟨n :: ms, x, by simp, Nat.succ_lt_succ length, hx, sound,
        List.forall_mem_cons.mpr ⟨near, nears⟩, fun i as' => ?_⟩
      rw [List.length_cons, Nat.add_right_comm, run_iterateUpTo_succ, run_collect, hv]
      show (iterateUpTo (collect (entry expression' none)) _ (as' ++ [n'])).run v = _
      rw [again i, hn]
      simp [Node.relabelAll]
    · -- the semicolon was read with the entry
      have sound : c.error = none := by
        cases hc : c.error with
        | none => rfl
        | some e => exact absurd (fun x sound => by rw [hc] at sound; cases sound) goesOn
      rw [hc sound] at ahead
      cases j with
      | zero => cases hs
      | succ j =>
        replace hs : (iterateUpTo (collect (entry expression none)) (j + 1) (as ++ [n])).run w =
          .ok (ns, u) := hs
        rw [run_iterateUpTo_succ, run_collect] at hs
        obtain ⟨r, hr', hs⟩ := bind_eq_ok (bind_assoc (m := Except Stop) .. ▸ hs)
        cases (run_entry_over stalls spent hr').2
        cases hs
        refine ⟨[n], v, rfl, Nat.succ_lt_succ (Nat.succ_pos j), ahead, sound,
          List.forall_mem_cons.mpr ⟨near, nofun⟩, fun i as' => ?_⟩
        rw [List.length_singleton, Nat.add_comm, run_iterateUpTo_succ, run_collect, hv, hn]
        rfl
    · cases hs
      rw [hc sound] at ahead
      have semicolons : ∀ x ∈ semis ++ [semi], x.isDelimiter ";" := by
        simpa [or_imp, forall_and] using ⟨all, hsemi⟩
      replace ahead : t.ahead = (semis ++ [semi]) ++ rest := by simpa using ahead
      obtain ⟨v, hv, same⟩ := run_entry_skip semicolons ahead
      refine ⟨[], v, by simp, Nat.succ_pos j, hv, sound, nofun, fun i as' => ?_⟩
      rw [List.length_nil, Nat.zero_add, run_iterateUpTo_succ, run_iterateUpTo_succ, run_collect,
        run_collect, same]
      simp [Node.relabelAll]

end

end Parser

/-! ## Scripts -/

/-- Before anything was read, only what is ahead matters. -/
theorem Stream.Twin.of_ahead {m : Placement} {limit : Nat} {c : Seam} {s t v : Stream}
    (h : s.Twin m limit c false t) (hs : s.previous = none) (hv : v.ahead = t.ahead) :
    s.Twin m limit c false v :=
  ⟨h.error, hv ▸ h.ahead, fun u hu => (by rw [hs] at hu; cases hu), nofun⟩

/-- The second script, where it stands. -/
theorem View.whole_second (a b : List Char) : (View.whole b).moved (.second a) =
    ⟨(((Position.start.after a).step '\n').step ';').step '\n', b, []⟩ := by
  have offset := Position.offset_after .start a
  simp only [View.moved, View.whole, Position.moved, Position.start, Position.step,
    Placement.second, List.append_nil] at offset ⊢
  simp [offset]
  omega

/-- The tokens of the first script and of the whole. -/
theorem twin_joined (a b : List Char) : ∃ (c : Seam) (semi : Token), semi.isDelimiter ";" ∧
    Stream.Twin (.first b) a.length c false (.ofLexed (tokenize a) false 0)
      (.ofLexed (tokenize (joined a b)) false 0) ∧
    (c.error = none → c.rest = semi :: ((View.whole b).moved (.second a)).tokens.tokens) := by
  obtain ⟨c, twin, seam⟩ := Parser.twin_ofLexed (m := .first b) (.through .start a)
    (fun _ p => by
      obtain ⟨semi, hsemi, h⟩ := View.rest_first b p
      exact ⟨semi, _, h, by simp [Token.endsText, hsemi]⟩) false false
  obtain ⟨semi, hsemi, rest⟩ := View.rest_first b (Position.start.after a)
  have limit : Position.start.offset + (View.mk .start a []).length = a.length := by
    simp [View.length, Position.start]
  rw [limit] at twin
  refine ⟨c, semi, hsemi, twin, fun sound => ?_⟩
  obtain ⟨p, hp, start⟩ := seam sound
  rw [hp, start rfl, rest, View.whole_second]

/-- A script can be read if its entries can be read, up to the number of its tokens. -/
theorem parseEntries_eq_ok {source : List Char} {ns : List Node} :
    parseEntries source false = .ok ns ↔ ∃ u, (Parser.iterateUpTo (Parser.collect
      (Parser.entry (Parser.expressionUpTo (source.length + 1)) none))
      ((Stream.ofLexed (tokenize source) false 0).ahead.length + 1) []).run
      (.ofLexed (tokenize source) false 0) = .ok (ns, u) := by
  have run : parseEntries source false = (·.1) <$> (Parser.iterateUpTo (Parser.collect
      (Parser.entry (Parser.expressionUpTo (source.length + 1)) none))
      ((Stream.ofLexed (tokenize source) false 0).ahead.length + 1) []).run
      (.ofLexed (tokenize source) false 0) := rfl
  rw [run]
  generalize StateT.run _ _ = result
  cases result with
  | error e =>
    refine ⟨fun h => absurd h error_ne_ok, fun h => ?_⟩
    obtain ⟨u, hu⟩ := h
    exact absurd hu error_ne_ok
  | ok r =>
    refine ⟨fun h => ⟨r.2, ?_⟩, fun ⟨u, hu⟩ => ?_⟩
    · cases h
      rfl
    · cases hu
      rfl

/-- Two scripts that can each be read on their own can be read with a semicolon between them: the
entries of the first, where they stand, and then those of the second, further on. -/
theorem parseEntries_joined {a b : List Char} {as bs : List Node}
    (ha : parseEntries a false = .ok as) (hb : parseEntries b false = .ok bs) :
    parseEntries (joined a b) false =
        .ok (as ++ Node.relabelAll (Placement.second a).relabel bs) ∧
      ∀ n ∈ as, ∀ span, n.span = some span → span.stop.offset ≤ a.length := by
  obtain ⟨u, ha⟩ := parseEntries_eq_ok.mp ha
  obtain ⟨w, hb⟩ := parseEntries_eq_ok.mp hb
  have deep : (joined a b).length = a.length + b.length + 3 := by
    simp [joined]
    omega
  obtain ⟨c, semi, hsemi, first, seam⟩ := twin_joined a b
  obtain ⟨c', second, ends⟩ := Parser.twin_beyond (.second a) (View.whole b) false false
  obtain ⟨ts, start, whole, -⟩ := first.ahead
  have ending := c.length_ending
  obtain ⟨_, v, rfl, count, hv, sound, near, again⟩ := Parser.entries_through
    (Parser.mirrors_expressionUpTo (k := (joined a b).length + 1) (by omega))
    (Parser.stalls_expressionUpTo _) hsemi seam ha first
  refine ⟨?_, near⟩
  -- the second script is read from where the reader is now
  have follows := second.of_ahead rfl (v := v) hv
  have longer : (Stream.ofLexed (tokenize b) false 0).ahead.length ≤ v.ahead.length :=
    follows.length_le
  have fuel : ∃ i, (Stream.ofLexed (tokenize (joined a b)) false 0).ahead.length + 1 =
      as.length + (i + 1) ∧ (Stream.ofLexed (tokenize b) false 0).ahead.length ≤ i := by
    rw [start, List.length_append] at count
    rw [whole, seam sound, ← hv, List.length_append, List.length_map, List.length_cons]
    exact ⟨ts.length + (v.ahead.length + 1) - as.length, by omega, by omega⟩
  obtain ⟨i, fuel, enough⟩ := fuel
  obtain ⟨_, x, hx, rfl, -⟩ := Parser.entriesUpTo_follows
    (Parser.mirrors_expressionUpTo (k := (joined a b).length + 1) (by omega))
    (Parser.stalls_expressionUpTo _) (nofun : none ≠ some ";") (fun _ => ends) follows
    (Nat.succ_le_succ enough) _ _ hb
  refine parseEntries_eq_ok.mpr ⟨x, ?_⟩
  rw [fuel, again, Parser.run_iterateUpTo_collect, hx, Placement.relabel_first,
    Node.relabelAll_same]
  rfl

end Sigil
