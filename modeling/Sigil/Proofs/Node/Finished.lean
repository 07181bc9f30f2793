import Sigil.Proofs.Node.Alone
import Sigil.Proofs.Node.FinishingExpressions
import Sigil.Proofs.Node.Inside
import Sigil.Proofs.Node.Joined

/-!
# Finishing scripts

The entries of a text are read until there is one that the text ends within. This
one can be finished, with a semicolon behind it, and then there are no more
(`Parser.entries_complete`). The longer text is cut into the tokens of the text
and those that were written behind it (`tokenize_filled`). So whoever is asked
for more can go on (`parseProgram_finishable`).
-/

namespace Sigil

/-- What separates entries. -/
def Filler.separator : Filler := ⟨.delimiter ";", show ";" ∈ Mark.delimiters by decide⟩

namespace Parser

open Filler

section

variable {ι : Type} {s t : Stream} {expression : Parser Node} {expression' : ι → Parser Node}

/-! ## Entries -/

theorem run_entryHere_end (e : Parser Node) (ended : s.Over) :
    (entryHere e none).run s = .ok (none, s) := by
  obtain ⟨x, hx, spent⟩ := ended.next
  rw [entryHere, StateT.run_bind, run_atClosing, hx]
  show (if closes none x then _ else _ : Parser (Option Node)).run s = _
  rw [if_pos (show closes none x by simpa [closes] using spent)]
  rfl

/-- More is never needed to end an entry. -/
theorem endEntry_complete (hs : s.Ends) (missing : Missing) :
    (endEntry none).run s ≠ .error (.needsMore missing) := by
  obtain ⟨x, hx⟩ := hs.peek 0
  intro h
  rw [endEntry, atDelimiter, bind_assoc, run_peek_bind hx] at h
  simp only [pure_bind] at h
  split_ifs at h
  · rw [StateT.run_bind, run_advance, hx] at h
    cases h
  · rw [StateT.run_bind, run_atClosing, hx] at h
    replace h : (if closes none x then _ else _ : Parser Unit).run s = _ := h
    split_ifs at h with closed
    · cases h
    · replace h : (if s.previous.any (·.isDelimiter "\x7d") then _ else _ :
        Parser Unit).run s = _ := h
      split_ifs at h
      · cases h
      · rw [run_unexpected hx (by simpa [closes] using closed)] at h
        cases h

/-- With a semicolon, an entry ends. -/
theorem gives_ended (ht : t.Says (chunks [separator])) (n : Node) :
    Gives (do endEntry none; return some n) t fun _ v => v.Says [] := by
  refine Gives.bind (Gives.yes (gives_atDelimiter ht) rfl (Gives.bind ?_))
  exact (gives_advance ht).mono fun _ v ⟨_, hv, _⟩ => Gives.pure (Gives.pure hv)

section

variable (he : Finishes expression expression')
include he

/-- An entry that was begun can be finished, with a semicolon behind it. -/
theorem entry_completes (hs : s.Ends) {missing : Missing}
    (h : (entry expression none).run s = .error (.needsMore missing)) :
    ∃ c, ∀ {line t}, s.Resumed line (c ++ [separator]) t → ∀ i,
      Gives (entry (expression' i) none) t fun _ v => v.Says [] := by
  have skip := (finishable_skipSemicolons (ι := ι)).viable hs
  rw [run_entry] at h
  cases hu : skipSemicolons.run s with
  | error e =>
    rw [hu] at h
    cases h
    -- this never happens, but a value finishes it like any entry
    obtain ⟨c, hc⟩ := skip.completes hu
    refine ⟨c ++ [value], fun resumed i => Gives.bind ?_⟩
    rw [List.append_assoc] at resumed
    refine (hc rfl resumed i).mono fun _ v hv => ?_
    refine Gives.no (gives_atClosing hv) rfl (Gives.bind ?_)
    exact (he.finishable.fresh i rfl hv).mono fun n w hw => gives_ended hw n
  | ok r =>
    obtain ⟨_, u⟩ := r
    rw [hu] at h
    replace h : (entryHere expression none).run u = .error (.needsMore missing) := h
    have ends := (skip.leaves hu).1
    rcases ends.cases with ended | ⟨x, hx, real⟩
    · rw [run_entryHere_end expression ended] at h
      cases h
    have here : Sees (atClosing none) (fun _ : ι => atClosing none) (closes none x) u :=
      sees_atClosing ends hx real
    have inside : ¬ closes none x := by simpa [closes] using real
    rw [entryHere, here.run_bind, if_neg inside, StateT.run_bind] at h
    cases hn : expression.run u with
    | error e =>
      rw [hn] at h
      cases h
      obtain ⟨c, hc⟩ := (he.finishable.viable ends).completes hn
      refine ⟨c, fun resumed i => Gives.bind ?_⟩
      refine (skip.passes hu resumed (fun ended => absurd (ended.not_real hx) real) i).mono ?_
      rintro _ v ⟨-, huv⟩
      refine Gives.no ⟨_, _, here.there i huv, rfl, rfl⟩ (Bool.eq_false_iff.mpr inside) ?_
      exact Gives.bind ((hc rfl huv i).mono fun n w hw => gives_ended hw n)
    | ok r =>
      obtain ⟨n, w⟩ := r
      rw [hn] at h
      replace h : (do endEntry none; return some n : Parser (Option Node)).run w =
        .error (.needsMore missing) := h
      rw [StateT.run_bind] at h
      cases hv : (endEntry none).run w with
      | error e =>
        rw [hv] at h
        cases h
        exact absurd hv (endEntry_complete ((he.finishable.viable ends).leaves hn).1 missing)
      | ok r =>
        rw [hv] at h
        cases h

/-- Entries of which the last was begun can be finished. -/
theorem entries_complete {missing : Missing} {j : Nat} {as : List Node} (hs : s.Ends)
    (h : (iterateUpTo (collect (entry expression none)) j as).run s =
      .error (.needsMore missing)) :
    ∃ c, c ≠ [] ∧ ∀ {line t}, s.Resumed line c t → ∀ i {k}, j < k → ∀ bs,
      Gives (iterateUpTo (collect (entry (expression' i) none)) k bs) t fun _ v => v.Says [] := by
  induction j generalizing as s with
  | zero => cases h
  | succ j ih =>
    rw [run_iterateUpTo_succ, run_collect] at h
    cases hr : (entry expression none).run s with
    | error e =>
      rw [hr] at h
      cases h
      obtain ⟨c, hc⟩ := entry_completes he hs hr
      refine ⟨c ++ [separator], by simp, fun resumed i k hk bs => ?_⟩
      obtain ⟨k, rfl⟩ : ∃ l, k = l + 2 := ⟨k - 2, by omega⟩
      refine Gives.bind (Gives.bind ((hc resumed i).mono fun r v hv => Gives.pure ?_))
      cases r with
      | none => exact Gives.pure hv
      | some n =>
        obtain ⟨x, hx, spent⟩ := hv.ended.next
        exact Gives.bind (Gives.bind ⟨_, _, run_entry_end hx spent, Gives.pure (Gives.pure hv)⟩)
    | ok r =>
      obtain ⟨r, u⟩ := r
      rw [hr] at h
      cases r with
      | none => cases h
      | some n =>
        replace h : (iterateUpTo (collect (entry expression none)) j (as ++ [n])).run u =
          .error (.needsMore missing) := h
        by_cases ended : u.Over
        · -- the loop ends with the text
          cases j with
          | zero => cases h
          | succ j =>
            obtain ⟨x, hx, spent⟩ := ended.next
            rw [run_iterateUpTo_succ, run_collect, run_entry_end hx spent] at h
            cases h
        · have entry : Viable (entry expression none) (fun i => entry (expression' i) none)
              (Closing none) s := (finishable_entry he (by decide)).viable hs
          obtain ⟨c, some, hc⟩ := ih (entry.leaves hr).1 h
          refine ⟨c, some, fun resumed i k hk bs => ?_⟩
          obtain ⟨k, rfl⟩ : ∃ l, k = l + 1 := ⟨k - 1, by omega⟩
          refine Gives.bind (Gives.bind ((entry.passes hr resumed (absurd · ended) i).mono ?_))
          rintro _ v ⟨rfl, huv⟩
          exact Gives.pure (hc huv i (by omega) _)

end

end

end Parser

/-! ## Scripts -/

theorem Filler.legible_chunks (fs : List Filler) : Legible none (chunks fs) := by
  induction fs with
  | nil => trivial
  | cons f fs ih => exact legible_soft f.2 (by cases fs <;> rfl) ih

/-- The tokens of a text without a fault, and those when tokens are written behind it in a new
line. -/
theorem tokenize_filled {source : List Char} (sound : (tokenize source).error = none) :
    ∃ ts p, tokenize source = ⟨ts ++ [.atEnd p], none⟩ ∧ (∀ x ∈ ts, x.content ≠ .endOfInput) ∧
      ∀ {fs}, fs ≠ [] → ∃ us,
        tokenize (source ++ '\n' :: textOf (Filler.chunks fs)) =
          ⟨ts.map (·.moved (.newLine (textOf (Filler.chunks fs)))) ++ us, none⟩ ∧
        Token.Say us (Filler.chunks fs) ∧
        ∀ x ∈ ts, ∀ u ∈ us.head?, Parser.adjacent x u = false := by
  obtain ⟨ts, v, reads, ⟨e, he, -⟩ | ⟨p, hp, gap, rfl⟩⟩ := (View.whole source).tokens_reads
  · change tokenize source = _ at he
    rw [he] at sound
    cases sound
  · change tokenize source = _ at hp
    have goesOn (more : List Char) :=
      reads.continues (m := .newLine more) (.through Position.start source)
    obtain ⟨-, -, -, reals, whole⟩ := goesOn []
    -- the end of the text is where its last character was
    have last : (v.advance (Lexer.gapLength false v.inside)).position.offset = source.length := by
      obtain ⟨none, after⟩ := whole rfl
      have spent := View.after_inside_advance none (Lexer.gapLength false v.inside)
      rw [gap, Position.after_nil, after] at spent
      rw [spent, Position.offset_after]
      exact Nat.zero_add _
    refine ⟨ts, _, hp, fun x hx => (reals x hx).1, fun {fs} some => ?_⟩
    obtain ⟨f, fs, rfl⟩ := List.exists_cons_of_ne_nil some
    generalize written : Filler.chunks (f :: fs) = ps
    obtain ⟨w, continues, tokens, -, -⟩ := goesOn (textOf ps)
    rw [View.tokens_rest continues gap] at tokens
    generalize (v.advance (Lexer.gapLength false v.inside)).position = p at last tokens
    change tokenize (source ++ '\n' :: textOf ps) = (View.mk (p.moved (.newLine (textOf ps)))
      ('\n' :: textOf ps) []).tokens.prepend _ at tokens
    obtain ⟨u, us, cut, said, first⟩ := View.tokens_say ps
      ⟨(p.moved (.newLine (textOf ps))).step '\n', textOf ps, []⟩ rfl
      (written ▸ Filler.legible_chunks (f :: fs))
    rw [View.tokens_break, cut] at tokens
    refine ⟨u :: us, tokens, said, ?_⟩
    rintro x hx _ ⟨⟩
    have stop : x.span.stop.offset ≤ Position.start.offset + (View.whole source).length :=
      (reals x hx).2
    have start := first ⟨true, f.1⟩ (by rw [← written]; rfl)
    simp only [View.length, View.whole, Position.start, List.length_nil] at stop
    simp only [Position.offset_step, Position.moved, Placement.newLine] at start
    exact decide_eq_false (by omega)

/-- A text that ends within a construct can be finished in a new line: then it is a script, and the
next entries of a session. -/
theorem parseProgram_finishable {source : List Char} (sound : (tokenize source).error = none)
    {missing : Missing} (h : parseEntries source true = .error (.needsMore missing)) :
    ∃ more, (∃ node, parseProgram (source ++ '\n' :: more) = .ok node) ∧
      ∃ ns, parseEntries (source ++ '\n' :: more) true = .ok ns := by
  obtain ⟨ts, p, cut, real, filled⟩ := tokenize_filled sound
  have stopped : (Parser.entries (Parser.expressionUpTo (source.length + 1)) none).run
      (.ofLexed (tokenize source) true 0) = .error (.needsMore missing) := by
    rw [parseEntries] at h
    cases run : (Parser.entries (Parser.expressionUpTo (source.length + 1)) none).run
      (.ofLexed (tokenize source) true 0) with
    | error e =>
      rw [run] at h
      cases h
      rfl
    | ok r =>
      rw [run] at h
      cases h
  have ends : (Stream.ofLexed (tokenize source) true 0).Ends :=
    ⟨sound, ts, .atEnd p, by rw [cut]; rfl, rfl, real⟩
  obtain ⟨c, some, hc⟩ :=
    Parser.entries_complete (Parser.finishes_expressionUpTo (source.length + 1)) ends stopped
  obtain ⟨us, longer, said, apart⟩ := filled some
  generalize textOf (Filler.chunks c) = more at longer
  have entries (o : Bool) : ∃ ns u, (Parser.entries
      (Parser.expressionUpTo ((source ++ '\n' :: more).length + 1)) none).run
      (.ofLexed (tokenize (source ++ '\n' :: more)) o 0) = .ok (ns, u) := by
    have resumed : (Stream.ofLexed (tokenize source) true 0).Resumed more c
        (.ofLexed (tokenize (source ++ '\n' :: more)) o 0) :=
      ⟨some, by rw [longer]; rfl, ⟨ts, .atEnd p, us, by rw [cut]; rfl, by rw [longer]; rfl, rfl,
        said, fun x hx => ⟨real x hx, apart x hx⟩⟩, rfl⟩
    have deeper : source.length + 1 < (source ++ '\n' :: more).length + 1 := by
      rw [List.length_append, List.length_cons]
      omega
    obtain ⟨ns, u, run, -⟩ := hc resumed ⟨_, deeper⟩ (Nat.succ_lt_succ resumed.length_lt) []
    exact ⟨ns, u, run⟩
  refine ⟨more, ?_, ?_⟩
  · obtain ⟨ns, u, run⟩ := entries false
    obtain ⟨span, run⟩ := Parser.program_of_entries run
    exact ⟨.program span ns, by rw [parseProgram, run]; rfl⟩
  · obtain ⟨ns, u, run⟩ := entries true
    exact ⟨ns, by rw [parseEntries, run]; rfl⟩

/-- A block that ends within the arguments of a call. -/
def openSample : List Char := "\x7b let $x = f(1,".toList

/-- A call can be finished that is the value of a definition in a block. -/
theorem parseProgram_finishable_call : (tokenize openSample).error = none ∧
    (∃ missing, parseEntries openSample true = .error (.needsMore missing)) ∧
    ∃ more, (∃ node, parseProgram (openSample ++ '\n' :: more) = .ok node) ∧
      ∃ ns, parseEntries (openSample ++ '\n' :: more) true = .ok ns := by
  have sound : (tokenize openSample).error = none := by decide +kernel
  have checked : (parseEntries openSample true).map (fun _ => ()) =
      .error (.needsMore (.construct .expression)) := by
    decide +kernel
  cases stopped : parseEntries openSample true with
  | ok ns =>
    rw [stopped] at checked
    cases checked
  | error e =>
    rw [stopped] at checked
    cases checked
    exact ⟨sound, ⟨_, rfl⟩, parseProgram_finishable sound stopped⟩

end Sigil
