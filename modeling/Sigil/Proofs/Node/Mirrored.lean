import Sigil.Proofs.Node.Accepted
import Sigil.Proofs.Node.Twin

/-!
# Entries within a longer text

Given readers of expressions of which the second reads what the first reads,
where it stands in the longer text (`Parser.Mirrors`), entries are read alike
in both texts (`Parser.entries_follows`). Only the end of an entry sees that the
text ends and the longer one goes on with a semicolon, which is then read with
the entry (`Parser.Ended`). Within braces or parentheses this cannot be, as the
closing mark would be missing.
-/

namespace Sigil

/-- The end of the text is next. -/
def Stream.Over (s : Stream) : Prop :=
  ∃ e xs, s.ahead = e :: xs ∧ e.content = .endOfInput

theorem Stream.Over.next {s : Stream} (h : s.Over) :
    ∃ e, s.Next e ∧ e.content = .endOfInput := by
  obtain ⟨e, xs, ahead, he⟩ := h
  exact ⟨e, next_of_ahead ahead, he⟩

/-- Where the first of two streams is over, the longer text goes on with what comes after the
text. -/
theorem Stream.Twin.over {m : Placement} {limit : Nat} {c : Seam} {b : Bool} {s t : Stream}
    (h : s.Twin m limit c b t) {x : Token} (hx : s.Next x) (he : x.content = .endOfInput) :
    s.Over ∧ c.error = none ∧ t.ahead = c.rest := by
  obtain ⟨ts, hs, ht, real⟩ := h.ahead
  cases ts with
  | cons u ts =>
    rw [Next, peek, hs] at hx
    cases hx
    exact absurd he (real x List.mem_cons_self).1
  | nil =>
    rcases c.proper with ⟨none, error⟩ | ⟨none, e, y, ys, ending, he, -⟩
    · have some := length_of_peek hx (h.error ▸ error)
      exact absurd some (by simp [hs, none])
    · exact ⟨⟨e, [], by rw [hs, ending]; rfl, he⟩, none, ht⟩

namespace Parser

section

variable {α β : Type} {p : Parser α} {q : Parser β} {s t : Stream}

/-- Reading other streams on the way. -/
theorem Follows.nested {s' t' : Stream} {Q : α × Stream → β × Stream → Stream → Stream → Prop}
    (h : Follows p q s' t' fun a b u v => Q (a, u) (b, v) s t) :
    Follows (liftM (p.run s') : Parser (α × Stream)) (liftM (q.run t') : Parser (β × Stream))
      s t Q := by
  rintro ⟨a, u⟩ w ha
  have hp : (p.run s' >>= fun r => Except.ok (r, s)) = .ok ((a, u), w) := ha
  obtain ⟨_, first, hw⟩ := bind_eq_ok hp
  cases hw
  obtain ⟨b, v, hb, hq⟩ := h a u first
  refine ⟨(b, v), t, ?_, hq⟩
  show (q.run t' >>= fun r => Except.ok (r, t)) = _
  rw [hb]
  rfl

end

/-! ## Entries -/

section

variable {m : Placement} {limit : Nat} {c : Seam} {b : Bool} {s t : Stream}

/-- The same tree was read from both streams, where it stands in each; it ends before the limit. -/
def Mirrored (m : Placement) (limit : Nat) (c : Seam) (n n' : Node) (u v : Stream) : Prop :=
  n' = n.relabel m.relabel ∧ (∀ span, n.span = some span → span.stop.offset ≤ limit) ∧
    u.Twin m limit c true v

/-- The second reader reads the trees that the first reads, in the longer text. -/
def Mirrors (m : Placement) (p q : Parser Node) : Prop :=
  ∀ limit c b s t, s.Twin m limit c b t → Follows p q s t (Mirrored m limit c)

/-- Nothing can be read at the end of the text. -/
def Stalls {α : Type} (p : Parser α) : Prop :=
  ∀ s, s.Over → ∀ r, p.run s ≠ .ok r

/-- What `skipSemicolons` does over and over. -/
def semicolon : Parser (Option Token) := do
  if ← atDelimiter ";" then return some (← advance) else return none

/-- What `many` does over and over. -/
def collect {α : Type} (step : Parser (Option α)) (as : List α) : Parser (Option (List α)) := do
  return (← step).map fun a => as ++ [a]

theorem run_collect {α : Type} (step : Parser (Option α)) (as : List α) (s : Stream) :
    (collect step as).run s =
      step.run s >>= fun r => .ok (r.1.map fun a => as ++ [a], r.2) := by
  rw [collect, StateT.run_bind]
  rfl

theorem run_iterateUpTo_succ {α : Type} (step : α → Parser (Option α)) (k : Nat) (a : α)
    (s : Stream) : (iterateUpTo step (k + 1) a).run s = (step a).run s >>= fun r =>
      match r.1 with
      | none => .ok (a, r.2)
      | some a => (iterateUpTo step k a).run r.2 := by
  rw [iterateUpTo, StateT.run_bind]
  cases (step a).run s with
  | error e => rfl
  | ok r =>
    obtain ⟨r, t⟩ := r
    cases r <;> rfl

/-- The loop that collects results adds to those that there are. -/
theorem run_iterateUpTo_collect {α : Type} (step : Parser (Option α)) (k : Nat) (as : List α)
    (s : Stream) : (iterateUpTo (collect step) k as).run s =
      (iterateUpTo (collect step) k []).run s >>= fun r => .ok (as ++ r.1, r.2) := by
  induction k generalizing as s with
  | zero => rfl
  | succ k ih =>
    rw [run_iterateUpTo_succ, run_iterateUpTo_succ, run_collect, run_collect]
    cases step.run s with
    | error e => rfl
    | ok r =>
      obtain ⟨r, t⟩ := r
      cases r with
      | none => exact congrArg (fun as => Except.ok (as, t)) (List.append_nil as).symm
      | some a =>
        show (iterateUpTo (collect step) k (as ++ [a])).run t =
          (iterateUpTo (collect step) k ([] ++ [a])).run t >>= _
        rw [ih, ih ([] ++ [a])]
        cases (iterateUpTo (collect step) k []).run t with
        | error e => rfl
        | ok r => exact congrArg (fun as => Except.ok (as, r.2)) (List.append_assoc as [a] r.1)

theorem run_semicolon (s : Stream) : semicolon.run s = s.peek 0 >>= fun x =>
    if x.isDelimiter ";" then .ok (some x, s.pop x) else .ok (none, s) := by
  have bind : semicolon.run s = (atDelimiter ";").run s >>= fun r =>
      (if r.1 then do return some (← advance) else return none : Parser (Option Token)).run r.2 :=
    StateT.run_bind ..
  have at_ : (atDelimiter ";").run s = s.peek 0 >>= fun x => .ok (x.isDelimiter ";", s) := by
    rw [atDelimiter, StateT.run_bind, run_peek]
    cases s.peek 0 <;> rfl
  rw [bind, at_]
  cases hx : s.peek 0 with
  | error e => rfl
  | ok x =>
    show (if x.isDelimiter ";" then do return some (← advance) else return none :
      Parser (Option Token)).run s = if x.isDelimiter ";" then _ else _
    split_ifs
    · rw [StateT.run_bind, run_advance, hx]
      rfl
    · rfl

theorem run_skipSemicolons (s : Stream) : skipSemicolons.run s =
    (iterateUpTo (collect semicolon) (s.ahead.length + 1) []).run s >>= fun r => .ok ((), r.2) := by
  rfl

/-- A semicolon that is next is skipped. -/
theorem run_skipSemicolons_pop {s : Stream} {x : Token} (hx : s.Next x) (h : x.isDelimiter ";") :
    skipSemicolons.run s = skipSemicolons.run (s.pop x) := by
  have real := Token.isDelimiter_content h
  obtain ⟨xs, ahead⟩ := hx.cons real
  have left : (s.pop x).ahead = xs := by rw [Stream.pop, if_neg real]; simp [ahead]
  rw [run_skipSemicolons, run_skipSemicolons, ahead, left, List.length_cons, run_iterateUpTo_succ,
    run_collect, run_semicolon, hx]
  show ((if x.isDelimiter ";" then _ else _) >>= _) >>= _ >>= _ = _
  rw [if_pos h]
  show (iterateUpTo (collect semicolon) (xs.length + 1) [x]).run (s.pop x) >>= _ = _
  rw [run_iterateUpTo_collect]
  cases (iterateUpTo (collect semicolon) (xs.length + 1) []).run (s.pop x) <;> rfl

/-- Nothing is skipped before anything else. -/
theorem run_skipSemicolons_stop {s : Stream} {x : Token} (hx : s.Next x)
    (h : ¬ x.isDelimiter ";") : skipSemicolons.run s = .ok ((), s) := by
  rw [run_skipSemicolons, run_iterateUpTo_succ, run_collect, run_semicolon, hx]
  show ((if x.isDelimiter ";" then _ else _) >>= _) >>= _ >>= _ = _
  rw [if_neg h]
  rfl

theorem run_skipSemicolons_error {s : Stream} {e : Stop} (h : s.peek 0 = .error e) :
    skipSemicolons.run s = .error e := by
  rw [run_skipSemicolons, run_iterateUpTo_succ, run_collect, run_semicolon, h]
  rfl

/-- After the semicolons that come next, either the text goes on, and so does the longer one, or the
text ends, and the longer one has only semicolons before what comes there. -/
theorem skipSemicolons_cases (h : s.Twin m limit c b t) {u : Stream}
    (hs : skipSemicolons.run s = .ok ((), u)) :
    (∃ x v, u.Next x ∧ x.content ≠ .endOfInput ∧ u.Twin m limit c b v ∧
      skipSemicolons.run t = .ok ((), v)) ∨
    u.Over ∧ c.error = none ∧
      (∃ semis, (∀ x ∈ semis, x.isDelimiter ";") ∧ t.ahead = semis ++ c.rest) ∧
      (c.IsEnd → ∃ v, u.Twin m limit c b v ∧ skipSemicolons.run t = .ok ((), v)) := by
  induction hn : s.ahead.length using Nat.strongRecOn generalizing s t with
  | ind n ih =>
    cases hx : s.peek 0 with
    | error e => rw [run_skipSemicolons_error hx] at hs; cases hs
    | ok x =>
      obtain ⟨y, hy, alike⟩ := h.next hx
      by_cases semi : x.isDelimiter ";"
      · have real := Token.isDelimiter_content semi
        obtain ⟨rfl, -⟩ := alike.real real
        have semi' : (x.moved m).isDelimiter ";" := by rwa [Token.isDelimiter_moved]
        have popped := Stream.Next.reads hx real
        have less := popped.length
        rw [run_skipSemicolons_pop hx semi] at hs
        rw [run_skipSemicolons_pop hy semi']
        refine (ih _ (by omega) ((h.pop hx real).later b) hs rfl).imp_right ?_
        rintro ⟨spent, none, ⟨semis, all, ahead⟩, rest⟩
        refine ⟨spent, none, ⟨x.moved m :: semis, List.forall_mem_cons.mpr ⟨semi', all⟩, ?_⟩, rest⟩
        obtain ⟨ys, hys⟩ := hy.cons (Token.isDelimiter_content semi')
        rw [Stream.pop, if_neg (Token.isDelimiter_content semi')] at ahead
        simpa [hys] using ahead
      · rw [run_skipSemicolons_stop hx semi] at hs
        cases hs
        by_cases real : x.content = .endOfInput
        · obtain ⟨spent, none, ahead⟩ := h.over hx real
          refine .inr ⟨spent, none, ⟨[], List.forall_mem_nil _, ahead⟩, fun isEnd => ⟨t, h, ?_⟩⟩
          refine run_skipSemicolons_stop hy fun hd => ?_
          rcases alike with ⟨hr, -⟩ | ⟨-, -, head⟩
          · exact hr real
          · exact Token.isDelimiter_content hd (isEnd y none head)
        · refine .inl ⟨x, t, hx, real, h, ?_⟩
          obtain ⟨rfl, -⟩ := alike.real real
          exact run_skipSemicolons_stop hy (by rwa [Token.isDelimiter_moved])

/-- What becomes of two streams at the end of an entry: they go on alike, or the text is over, and
what comes after it in the longer text was read with the entry. -/
def Ended (m : Placement) (limit : Nat) (c : Seam) (u v : Stream) : Prop :=
  u.Twin m limit c true v ∨ ¬ c.IsEnd ∧ u.Over ∧ v.ahead = c.rest.drop 1

theorem atClosing_follows {closing : Option String} (hclosing : closing ≠ some ";")
    {Q : Bool → Bool → Stream → Stream → Prop} (h : s.Twin m limit c b t) {x y : Token}
    (hx : s.Next x) (hy : t.Next y) (alike : x.Alike m limit c y)
    (ends : closing = none → x.content = .endOfInput → y.content = .endOfInput)
    (hQ : ∀ closed, Q closed closed s t) :
    Follows (atClosing closing) (atClosing closing) s t Q := by
  cases closing with
  | some d => exact atDelimiter_follows (fun e => hclosing (e ▸ rfl)) h fun x _ => hQ _
  | none =>
    refine .bind (peek_follows h fun x' y' hx' hy' _ => .pure ?_)
    cases hx.symm.trans hx'
    cases hy.symm.trans hy'
    by_cases he : x.content = .endOfInput
    · simpa [he, ends rfl he] using hQ true
    · obtain ⟨rfl, -⟩ := alike.real he
      simpa [he, (Token.content_moved x).not.mpr he] using hQ false

theorem WP.of_ok {α : Type} {p : Parser α} {Q : α → Stream → Prop} (h : WP p s Q) {a : α}
    {u : Stream} (ha : p.run s = .ok (a, u)) : Q a u := by
  rw [WP, ha] at h
  exact h

/-- The end of an entry where no semicolon is next. -/
def endUnseparated (closing : Option String) : Parser Unit := do
  if ← atClosing closing then return ()
  else if (← get).previous.any (·.isDelimiter "\x7d") then return ()
  else unexpected (.endOfEntry closing)

theorem endUnseparated_wp {closing : Option String} :
    WP (endUnseparated closing) s fun _ u => u = s := by
  refine WP.bind (WP.mono atClosing_wp fun closed t ht => ?_)
  subst ht
  split_ifs
  · exact WP.pure rfl
  · refine WP.bind (WP.get ?_)
    split_ifs
    · exact WP.pure rfl
    · exact unexpected_wp

theorem endUnseparated_follows {closing : Option String} (hclosing : closing ≠ some ";")
    (h : s.Twin m limit c true t) {x y : Token} (hx : s.Next x) (hy : t.Next y)
    (alike : x.Alike m limit c y) (ends : x.content = .endOfInput → y.content = .endOfInput) :
    Follows (endUnseparated closing) (endUnseparated closing) s t fun _ _ u v =>
      u.Twin m limit c true v := by
  refine .bind (atClosing_follows hclosing h hx hy alike (fun _ => ends) fun closed => ?_)
  split_ifs
  · exact .pure h
  · refine .bind (.get ?_)
    obtain ⟨p, hp⟩ := Option.isSome_iff_exists.mp (h.begun rfl)
    rw [hp, (h.previous p hp).1, Option.any_some, Option.any_some, Token.isDelimiter_moved]
    split_ifs
    · exact .pure h
    · exact .unexpected

theorem endEntry_follows {closing : Option String} (hclosing : closing ≠ some ";")
    (h : s.Twin m limit c true t) :
    Follows (endEntry closing) (endEntry closing) s t fun _ _ => Ended m limit c := by
  refine .bind (.bind (peek_follows h fun x y hx hy alike => .pure ?_))
  by_cases real : x.content = .endOfInput
  · have stop : ¬ x.isDelimiter ";" := fun hd => Token.isDelimiter_content hd real
    rw [if_neg stop]
    rcases Token.endsText_cases (alike.endsText real) with hc | ⟨hc, hl⟩
    · have stop' : ¬ y.isDelimiter ";" := fun hd => Token.isDelimiter_content hd hc
      rw [if_neg stop']
      exact (endUnseparated_follows hclosing h hx hy alike fun _ => hc).mono
        fun _ _ _ _ => .inl
    · -- the longer text goes on with a semicolon, which ends the entry in it
      have semi : y.isDelimiter ";" := by simp [Token.isDelimiter, hc, hl]
      have real' := Token.isDelimiter_content semi
      obtain ⟨spent, -, ahead⟩ := h.over hx real
      rw [if_pos semi]
      intro _ u hu
      obtain rfl := endUnseparated_wp.of_ok hu
      refine ⟨(), t.pop y, ?_, .inr ⟨fun isEnd => ?_, spent, ?_⟩⟩
      · rw [StateT.run_bind, run_advance, hy]
        rfl
      · rcases alike with ⟨hr, -⟩ | ⟨-, none, head⟩
        · exact hr real
        · exact real' (isEnd y none head)
      · rw [Stream.pop, if_neg real', ← ahead]
  · obtain ⟨rfl, -⟩ := alike.real real
    rw [Token.isDelimiter_moved]
    split_ifs with semi
    · exact .bind (advance_follows h hx real fun u v huv => .pure (.inl huv))
    · exact (endUnseparated_follows hclosing h hx hy alike fun e => absurd e real).mono
        fun _ _ _ _ => .inl

end

section

variable {m : Placement} {limit : Nat} {c : Seam} {b : Bool} {s t : Stream}
  {expression expression' : Parser Node}

/-- An entry without the semicolons before it. -/
def entryHere (expression : Parser Node) (closing : Option String) : Parser (Option Node) := do
  if ← atClosing closing then return none
  else
    let n ← expression
    endEntry closing
    return some n

theorem run_entry (expression : Parser Node) (closing : Option String) (s : Stream) :
    (entry expression closing).run s =
      skipSemicolons.run s >>= fun r => (entryHere expression closing).run r.2 :=
  StateT.run_bind ..

/-- At the end of the text there is no entry. -/
theorem run_entryHere_over {closing : Option String} (stalls : Stalls expression) (h : s.Over)
    {r : Option Node × Stream} (hr : (entryHere expression closing).run s = .ok r) :
    closing = none ∧ r = (none, s) := by
  obtain ⟨x, hx, he⟩ := h.next
  have closed : (atClosing closing).run s = .ok (decide (closing = none), s) := by
    cases closing with
    | none =>
      rw [atClosing, StateT.run_bind, run_peek, hx]
      exact congrArg (fun b => Except.ok (b, s)) (decide_eq_true he)
    | some d =>
      have stop : x.isDelimiter d = false :=
        Bool.eq_false_iff.mpr fun hd => Token.isDelimiter_content hd he
      rw [atClosing, atDelimiter, StateT.run_bind, run_peek, hx]
      exact congrArg (fun b => Except.ok (b, s)) stop
  rw [entryHere, StateT.run_bind, closed] at hr
  cases closing with
  | none =>
    cases hr
    exact ⟨rfl, rfl⟩
  | some d =>
    obtain ⟨n, hn, -⟩ := bind_eq_ok (x := expression.run s) hr
    exact absurd hn (stalls s h n)

theorem run_entry_over {closing : Option String} (stalls : Stalls expression) (h : s.Over)
    {r : Option Node × Stream} (hr : (entry expression closing).run s = .ok r) :
    closing = none ∧ r = (none, s) := by
  obtain ⟨x, hx, he⟩ := h.next
  rw [run_entry, run_skipSemicolons_stop hx fun hd => Token.isDelimiter_content hd he] at hr
  exact run_entryHere_over stalls h hr

/-- An entry that was read from both streams, and what becomes of them at its end. -/
def EntryMirrored (m : Placement) (limit : Nat) (c : Seam) (n n' : Node) (u v : Stream) : Prop :=
  n' = n.relabel m.relabel ∧ (∀ span, n.span = some span → span.stop.offset ≤ limit) ∧
    Ended m limit c u v

/-- What there is of an entry after the semicolons before it, unless there is none. -/
theorem separated_follows {closing : Option String} (he : Mirrors m expression expression')
    (hclosing : closing ≠ some ";") (h : s.Twin m limit c b t) :
    Follows (do let n ← expression; endEntry closing; return some n)
      (do let n ← expression'; endEntry closing; return some n) s t fun r r' u v =>
        ∃ n n', r = some n ∧ r' = some n' ∧ EntryMirrored m limit c n n' u v := by
  refine .bind (.mono (he limit c b s t h) fun n n' u v ⟨hn, near, huv⟩ => ?_)
  refine .bind (.mono (endEntry_follows hclosing huv) fun _ _ u v ended => .pure ?_)
  exact ⟨n, n', rfl, rfl, hn, near, ended⟩

theorem entryHere_follows {closing : Option String} (he : Mirrors m expression expression')
    (hclosing : closing ≠ some ";") (h : s.Twin m limit c b t) {x : Token} (hx : s.Next x)
    (ends : closing = none → x.content = .endOfInput → c.IsEnd) :
    Follows (entryHere expression closing) (entryHere expression' closing) s t
      (Paired (fun u v => u.Twin m limit c b v) (EntryMirrored m limit c)) := by
  obtain ⟨y, hy, alike⟩ := h.next hx
  refine .bind (atClosing_follows hclosing h hx hy alike (fun none spent => ?_) fun closed => ?_)
  · rcases alike with ⟨real, -⟩ | ⟨-, error, head⟩
    · exact absurd spent real
    · exact ends none spent y error head
  · split_ifs
    · exact .pure h
    · refine (separated_follows he hclosing h).mono ?_
      rintro _ _ u v ⟨n, n', rfl, rfl, hn⟩
      exact hn

/-- Unless the text ends here and the longer one does not, an entry is read from both streams, or
none from either. -/
theorem entry_follows {closing : Option String} (he : Mirrors m expression expression')
    (stalls : Stalls expression) (hclosing : closing ≠ some ";") (ends : closing = none → c.IsEnd)
    (h : s.Twin m limit c b t) :
    Follows (entry expression closing) (entry expression' closing) s t
      (Paired (fun u v => u.Twin m limit c b v) (EntryMirrored m limit c)) := by
  intro r w hr
  rw [run_entry] at hr
  obtain ⟨⟨_, u⟩, skipped, hr⟩ := bind_eq_ok hr
  have there : ∃ x v, u.Next x ∧ u.Twin m limit c b v ∧ skipSemicolons.run t = .ok ((), v) := by
    rcases skipSemicolons_cases h skipped with ⟨x, v, hx, -, twin⟩ | ⟨spent, -, -, isEnd⟩
    · exact ⟨x, v, hx, twin⟩
    · obtain ⟨x, hx, -⟩ := spent.next
      obtain ⟨v, twin⟩ := isEnd (ends (run_entryHere_over stalls spent hr).1)
      exact ⟨x, v, hx, twin⟩
  obtain ⟨x, v, hx, twin, skipped'⟩ := there
  rw [run_entry, skipped']
  exact entryHere_follows he hclosing twin hx (fun none _ => ends none) r w hr

/-- Entries are read from both streams, unless the text ends here and the longer one does not. -/
theorem entriesUpTo_follows {closing : Option String} (he : Mirrors m expression expression')
    (stalls : Stalls expression) (hclosing : closing ≠ some ";") (ends : closing = none → c.IsEnd)
    (h : s.Twin m limit c b t) {j k : Nat} (hjk : j ≤ k) :
    Follows (iterateUpTo (collect (entry expression closing)) j [])
      (iterateUpTo (collect (entry expression' closing)) k []) s t fun ns ns' u v =>
        ns' = Node.relabelAll m.relabel ns ∧ u.Twin m limit c b v := by
  refine iterateUpTo_follows (R := fun ns ns' u v =>
    ns' = Node.relabelAll m.relabel ns ∧ u.Twin m limit c b v ∨ ¬ c.IsEnd ∧ u.Over)
    (fun ns ns' u v huv => ?_) hjk (.inl ⟨rfl, h⟩)
  rcases huv with ⟨hns, huv⟩ | ⟨goesOn, spent⟩
  · refine .bind (.mono (entry_follows he stalls hclosing ends huv) fun r r' u v hr => .pure ?_)
    cases r with
    | none =>
      cases r' with
      | none => exact ⟨hns, hr⟩
      | some n' => exact hr.elim
    | some n =>
      cases r' with
      | none => exact hr.elim
      | some n' =>
        obtain ⟨hn, -, ended⟩ := hr
        refine ended.imp (fun twin => ⟨?_, twin.later b⟩) fun ⟨goesOn, spent, _⟩ => ⟨goesOn, spent⟩
        rw [hns, hn, Node.relabelAll_eq_map, Node.relabelAll_eq_map, List.map_append]
        rfl
  · -- no entry can be read where the text is spent, and the closing mark is missing
    intro r w hr
    obtain ⟨r, hr, -⟩ := bind_eq_ok (x := (entry expression closing).run u) hr
    exact absurd (ends (run_entry_over stalls spent hr).1) goesOn

theorem entries_follows {closing : Option String} (he : Mirrors m expression expression')
    (stalls : Stalls expression) (hclosing : closing ≠ some ";") (ends : closing = none → c.IsEnd)
    (h : s.Twin m limit c b t) :
    Follows (entries expression closing) (entries expression' closing) s t fun ns ns' u v =>
      ns' = Node.relabelAll m.relabel ns ∧ u.Twin m limit c b v :=
  .bind (.get (entriesUpTo_follows he stalls hclosing ends h (Nat.succ_le_succ h.length_le)))

/-- Entries cannot be read where there is no token to see. -/
theorem run_entries_error (expression : Parser Node) (closing : Option String) {s : Stream}
    {e : Stop} (h : s.peek 0 = .error e) : (entries expression closing).run s = .error e := by
  show (iterateUpTo (collect (entry expression closing)) (s.ahead.length + 1) []).run s = _
  rw [run_iterateUpTo_succ, run_collect, entry, StateT.run_bind, run_skipSemicolons_error h]
  rfl

theorem run_program (expression : Parser Node) (s : Stream) :
    (program expression).run s = s.peek 0 >>= fun start =>
      (entries expression none).run s >>= fun r =>
        .ok ((some ⟨start.span.start, (r.2.previous.getD start).span.stop⟩, r.1), r.2) := by
  rw [program, StateT.run_bind, run_peek]
  cases s.peek 0 with
  | error e => rfl
  | ok start =>
    show (do
        let body ← entries expression none
        return (← spanFrom start, body) : Parser (Option Span × List Node)).run s =
      (entries expression none).run s >>= _
    rw [StateT.run_bind]
    rfl

/-- Where entries can be read, there is a text. -/
theorem program_of_entries {expression : Parser Node} {s u : Stream} {ns : List Node}
    (h : (entries expression none).run s = .ok (ns, u)) :
    ∃ span, (program expression).run s = .ok ((span, ns), u) := by
  rw [run_program]
  cases first : s.peek 0 with
  | error e =>
    rw [run_entries_error expression none first] at h
    cases h
  | ok start =>
    rw [ok_bind, h]
    exact ⟨_, rfl⟩

/-- All entries of a text, where the longer one ends with it. -/
theorem program_follows (he : Mirrors m expression expression') (stalls : Stalls expression)
    (ends : c.IsEnd) (h : s.Twin m limit c b t) :
    Follows (program expression) (program expression') s t fun r r' _ _ =>
      r'.2 = Node.relabelAll m.relabel r.2 := by
  refine .bind (peek_follows h fun _ _ _ _ _ => ?_)
  refine .bind (.mono (entries_follows he stalls nofun (fun _ => ends) h) fun ns ns' u v hns => ?_)
  exact .bind (.bind (.get (.pure (.pure hns.1))))

/-! ## The tokens of a text -/

/-- The tokens of a view, on its own and in a longer text. -/
theorem twin_ofLexed {through : Bool} {v w : View} (h : View.Continues m through v w)
    (hrest : through → ∀ p, ∃ x xs, (View.rest m p true).tokens = x :: xs ∧ x.endsText)
    (o o' : Bool) : ∃ c : Seam, Stream.Twin m (v.position.offset + v.length) c false
      (.ofLexed v.tokens o 0) (.ofLexed w.tokens o' 0) ∧ (c.error = none →
        ∃ p, c.rest = (View.rest m p through).tokens ∧
          (v.beyond = [] → p = v.position.after v.inside)) := by
  obtain ⟨ts, l, hw, real, ⟨e, hv⟩ | ⟨p, hv, rfl, hp⟩⟩ := View.tokens_continues h
  · refine ⟨⟨some e, [], l.tokens, .inl ⟨rfl, rfl⟩⟩, ⟨?_, ⟨ts, ?_, ?_, real⟩, nofun, nofun⟩, nofun⟩
    · rw [hv]
      rfl
    · rw [hv]
      simp [Stream.ofLexed]
    · rw [hw]
      rfl
  · have proper : ∃ x xs, (View.rest m p through).tokens = x :: xs ∧ x.endsText := by
      cases through with
      | false => exact ⟨_, [], rfl, rfl⟩
      | true => exact hrest rfl p
    obtain ⟨x, xs, rest, hx⟩ := proper
    refine ⟨⟨none, [.atEnd p], (View.rest m p through).tokens,
      .inr ⟨rfl, .atEnd p, x, xs, rfl, rfl, rest, hx⟩⟩, ⟨?_, ⟨ts, ?_, ?_, real⟩, nofun, nofun⟩,
      fun _ => ⟨p, rfl, hp⟩⟩
    · rw [hv]
      rfl
    · rw [hv]
      rfl
    · rw [hw]
      rfl

/-- The tokens of a view with more text beyond it. -/
theorem twin_beyond (m : Placement) (v : View) (o o' : Bool) : ∃ c : Seam,
    Stream.Twin m (v.position.offset + v.length) c false (.ofLexed v.tokens o 0)
      (.ofLexed (v.moved m).tokens o' 0) ∧ c.IsEnd := by
  obtain ⟨c, twin, rest⟩ := twin_ofLexed (.beyond v) nofun o o'
  refine ⟨c, twin, fun x none head => ?_⟩
  obtain ⟨p, hp, -⟩ := rest none
  rw [hp] at head
  cases head
  rfl

end

end Parser

end Sigil
