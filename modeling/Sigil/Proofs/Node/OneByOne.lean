import Mathlib.Algebra.GroupWithZero.Nat
import Sigil.Proofs.Node.Inside
import Sigil.Proofs.Node.OpenEnded
import Sigil.Proofs.Session.Documents
import Sigil.Proofs.Token.Embedded

/-!
# Reading entries one at a time

A script is read as a tree, or in a loop over its entries, or by a call for
each entry that starts at the token where the last one ended (`EntriesFrom`).
All three give the same entries or stop for the same reason, and the calls take
up all tokens before the end of the text (`readings_agree`). A call knows nothing
of the token before its first one, and the loop does. This makes no difference
(`Stream.Abreast`), since what was read last is looked at only behind an
expression, and an expression has tokens.
-/

namespace Sigil

/-- The calls that read the entries of a text one at a time from a token on: the entries with how
many tokens each takes up, and last either the tokens of the call that finds no entry or why a call
failed. -/
inductive EntriesFrom (source : List Char) : Nat → List (Node × Nat) → Except Stop Nat → Prop
  | done {start n : Nat} (call : parseEntry source false start = .ok (none, n)) :
    EntriesFrom source start [] (.ok n)
  | failed {start : Nat} {e : Stop} (call : parseEntry source false start = .error e) :
    EntriesFrom source start [] (.error e)
  | next {start n : Nat} {node : Node} {read : List (Node × Nat)} {last : Except Stop Nat}
    (call : parseEntry source false start = .ok (some node, n))
    (rest : EntriesFrom source (start + n) read last) :
    EntriesFrom source start ((node, n) :: read) last

/-- The calls can go one way only. -/
theorem EntriesFrom.unique {source : List Char} {start : Nat} {read read' : List (Node × Nat)}
    {last last' : Except Stop Nat} (h : EntriesFrom source start read last)
    (h' : EntriesFrom source start read' last') : read' = read ∧ last' = last := by
  induction h generalizing read' with
  | done call =>
    cases h' with
    | done call' => cases call.symm.trans call'; exact ⟨rfl, rfl⟩
    | failed call' => cases call.symm.trans call'
    | next call' => cases call.symm.trans call'
  | failed call =>
    cases h' with
    | done call' => cases call.symm.trans call'
    | failed call' => cases call.symm.trans call'; exact ⟨rfl, rfl⟩
    | next call' => cases call.symm.trans call'
  | next call _ ih =>
    cases h' with
    | done call' => cases call.symm.trans call'
    | failed call' => cases call.symm.trans call'
    | next call' rest' =>
      cases call.symm.trans call'
      obtain ⟨rfl, rfl⟩ := ih rest'
      exact ⟨rfl, rfl⟩

/-- The loop over the entries of a text stands before its token with this number. -/
structure Stream.At (source : List Char) (start : Nat) (s : Stream) : Prop where
  ahead : s.ahead = (tokenize source).tokens.drop start
  fault : s.error = (tokenize source).error
  closed : s.openEnded = false
  reads : (Stream.ofLexed (tokenize source) false 0).Reads 0 s

namespace Stream.At

variable {source : List Char} {start : Nat} {s : Stream}

/-- The end of the text is still ahead, or a fault is behind the tokens. -/
theorem goesOn (h : s.At source start) : ¬ (s.ahead = [] ∧ s.error = none) := by
  rintro ⟨none, sound⟩
  obtain ⟨ts, -, ⟨e, tokens⟩ | ⟨p, tokens⟩⟩ := (View.whole source).tokens_end
  · have fault := h.fault
    rw [tokenize, tokens] at fault
    cases fault.symm.trans sound
  · obtain ⟨read, ahead, -, real⟩ := h.reads
    rw [none, List.append_nil] at ahead
    have last : Token.atEnd p ∈ read := by
      rw [← ahead]
      show _ ∈ (tokenize source).tokens
      rw [tokenize, tokens]
      exact List.mem_append_right ts List.mem_cons_self
    exact real _ last rfl

/-- Where the text ends, all tokens before its end were read. -/
theorem count (h : s.At source start) {x : Token} (hx : s.Next x) (ends : x.content = .endOfInput) :
    start = ((tokenize source).tokens.takeWhile (·.content ≠ .endOfInput)).length := by
  obtain ⟨y, ys, ahead⟩ : ∃ y ys, s.ahead = y :: ys := by
    refine List.exists_cons_of_ne_nil fun none => h.goesOn ⟨none, ?_⟩
    by_contra fault
    have some := Stream.length_of_peek hx (Option.isSome_iff_ne_none.mpr fault)
    exact absurd some (by simp [none])
  cases (Stream.next_of_ahead ahead).symm.trans hx
  obtain ⟨read, tokens, -, real⟩ := h.reads
  replace tokens : (tokenize source).tokens = read ++ x :: ys := ahead ▸ tokens
  have drop := h.ahead
  rw [ahead, tokens] at drop
  have length := congrArg List.length drop
  rw [List.length_drop, List.length_append, List.length_cons] at length
  have before : read.takeWhile (fun t => decide (t.content ≠ .endOfInput)) = read :=
    List.takeWhile_eq_self_iff.mpr fun t ht => decide_eq_true (real t ht)
  rw [tokens, List.takeWhile_append, before, if_pos rfl, List.takeWhile_cons_of_neg (by simp [ends]),
    List.append_nil]
  omega

end Stream.At

namespace Parser

/-- Where there is no further entry, the text ends. -/
theorem over_of_entry {expression : Parser Node} {s u : Stream}
    (h : (entry expression none).run s = .ok (none, u)) :
    ∃ x, u.Next x ∧ x.content = .endOfInput := by
  rw [run_entry] at h
  obtain ⟨⟨_, t⟩, -, h⟩ := bind_eq_ok h
  dsimp only at h
  rw [entryHere, StateT.run_bind, run_atClosing] at h
  cases hx : t.peek 0 with
  | error e =>
    rw [hx] at h
    cases h
  | ok x =>
    rw [hx, ok_bind, ok_bind] at h
    dsimp only at h
    split_ifs at h with closed
    · cases h
      exact ⟨x, hx, of_decide_eq_true closed⟩
    · -- an entry is read here
      rw [StateT.run_bind] at h
      obtain ⟨⟨n, v⟩, -, h⟩ := bind_eq_ok h
      rw [StateT.run_bind] at h
      obtain ⟨⟨_, w⟩, -, h⟩ := bind_eq_ok h
      cases h

/-- A call for an entry runs as the loop does from where it stands, and takes up what the loop
reads. -/
theorem run_entry_parseEntry {source : List Char} {start : Nat} {s : Stream}
    (h : s.At source start) :
    match (entry (expressionUpTo (source.length + 1)) none).run s with
    | .ok (n, u) => ∃ k, parseEntry source false start = .ok (n, k) ∧ u.At source (start + k) ∧
        s.Reads n.isSome.toNat u
    | .error e => parseEntry source false start = .error e := by
  have abreast := Stream.Abreast.start (s := s) (t := .ofLexed (tokenize source) false start)
    h.ahead.symm h.fault.symm rfl fun none => absurd none h.goesOn
  rw [h.closed] at abreast
  have agrees := entry_agrees none (runs_expressionUpTo (source.length + 1)) abreast
  rw [parseEntry]
  cases run : (entry (expressionUpTo (source.length + 1)) none).run s with
  | error e =>
    obtain ⟨e', call, meets⟩ := agrees.error run
    rw [call, meets.same]
    rfl
  | ok r =>
    obtain ⟨n, u⟩ := r
    obtain ⟨v, call, huv⟩ := agrees.ok run
    have taken : s.Reads n.isSome.toNat u := by simpa using huv.taken
    refine ⟨v.consumed, by rw [call]; rfl, ⟨?_, huv.fault.trans h.fault, huv.openEnded,
      h.reads.trans taken.any⟩, taken⟩
    obtain ⟨read, tokens, -, -⟩ := taken
    have counted : v.consumed + u.ahead.length = 0 + s.ahead.length := huv.counted
    have length : v.consumed = read.length := by
      rw [tokens, List.length_append] at counted
      omega
    rw [← List.drop_drop, ← h.ahead, tokens, length, List.drop_left]

/-- The loop over the entries and the calls, from a place that the loop comes to. -/
theorem entriesFrom_of_loop {source : List Char} {bound : Nat} :
    ∀ {start : Nat} {s : Stream}, s.At source start → s.ahead.length < bound →
      ∃ read last, EntriesFrom source start read last ∧
        match last with
        | .ok k => ∃ u x, (iterateUpTo (collect (entry (expressionUpTo (source.length + 1)) none))
              bound []).run s = .ok (read.map (·.1), u) ∧
            u.At source (start + (read.map (·.2)).sum + k) ∧ u.Next x ∧ x.content = .endOfInput
        | .error e => (iterateUpTo (collect (entry (expressionUpTo (source.length + 1)) none))
            bound []).run s = .error e := by
  induction bound with
  | zero => exact fun _ h => absurd h (Nat.not_lt_zero _)
  | succ bound ih =>
    intro start s h short
    have call := run_entry_parseEntry h
    rw [run_iterateUpTo_succ, run_collect]
    cases run : (entry (expressionUpTo (source.length + 1)) none).run s with
    | error e =>
      rw [run] at call
      exact ⟨[], .error e, .failed call, rfl⟩
    | ok r =>
      obtain ⟨node, u⟩ := r
      rw [run] at call
      obtain ⟨k, call, hu, taken⟩ := call
      cases node with
      | none =>
        obtain ⟨x, hx, ends⟩ := over_of_entry run
        exact ⟨[], .ok k, .done call, u, x, rfl, hu, hx, ends⟩
      | some node =>
        have less := taken.length
        rw [Option.isSome_some, Bool.toNat_true] at less
        obtain ⟨read, last, rest, loop⟩ := ih hu (by omega)
        refine ⟨(node, k) :: read, last, .next call rest, ?_⟩
        rw [ok_bind, ok_bind]
        dsimp only [Option.map_some]
        rw [run_iterateUpTo_collect]
        cases last with
        | error e =>
          rw [loop]
          rfl
        | ok l =>
          obtain ⟨w, x, loop, hw, hx, ends⟩ := loop
          rw [loop]
          refine ⟨w, x, rfl, ?_, hx, ends⟩
          rwa [List.map_cons, List.sum_cons, ← Nat.add_assoc]

end Parser

/-- The entries of a script, read one at a time, are those of its tree and those that the loop over
them reads, and the calls take up all tokens before the end of the text. If a call fails, then the
script can be read in neither way, for the same reason. -/
theorem readings_agree (source : List Char) : ∃ read last, EntriesFrom source 0 read last ∧
    match last with
    | .ok n =>
      (∃ span, parseProgram source = .ok (.program span (read.map (·.1)))) ∧
      parseEntries source false = .ok (read.map (·.1)) ∧
      (read.map (·.2)).sum + n =
        ((tokenize source).tokens.takeWhile (·.content ≠ .endOfInput)).length
    | .error e => parseProgram source = .error e ∧ parseEntries source false = .error e := by
  have first : (Stream.ofLexed (tokenize source) false 0).At source 0 := ⟨rfl, rfl, rfl, .refl _⟩
  obtain ⟨read, last, calls, loop⟩ := Parser.entriesFrom_of_loop first (Nat.lt_succ_self _)
  have whole := parseProgram_entries source
  have entries : parseEntries source false = (·.1) <$> (Parser.iterateUpTo
      (Parser.collect (Parser.entry (Parser.expressionUpTo (source.length + 1)) none))
      ((Stream.ofLexed (tokenize source) false 0).ahead.length + 1) []).run
      (.ofLexed (tokenize source) false 0) := rfl
  refine ⟨read, last, calls, ?_⟩
  cases last with
  | error e =>
    dsimp only at loop ⊢
    rw [loop] at entries
    rw [entries] at whole
    exact ⟨whole, entries⟩
  | ok n =>
    obtain ⟨u, x, loop, hu, hx, ends⟩ := loop
    rw [loop] at entries
    rw [entries] at whole
    refine ⟨whole, entries, ?_⟩
    rw [← hu.count hx ends, Nat.zero_add]

end Sigil
