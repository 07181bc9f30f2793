import Sigil.Proofs.Evaluation.Untyped
import Sigil.Proofs.Node.Joined
import Sigil.Proofs.Session.Unplaced

/-!
# Scripts run as one

Running a script and then another does the same as running them as one text,
with a semicolon between them, if the first runs to its end
(`runScript_joined`): the same outcome, the same diagnostics, and the same
session after it, with the same calls of the host, values, types and history,
but for spans.

The two scripts are read as before within the whole (`parseEntries_joined`),
so that the same entries run, but for spans, which neither checking nor running
sees (`Session.enterAll_unplaced`).
-/

namespace Sigil

/-! ## Entries -/

/-- An entry of the first script is made from the same text in the whole. -/
theorem Entry.of_joined_first {a : List Char} {n : Node} (b : List Char)
    (h : ∀ span, n.span = some span → span.stop.offset ≤ a.length) :
    Entry.of (joined a b) n = Entry.of a n := by
  unfold Entry.of
  cases hs : n.span with
  | none => rfl
  | some span =>
    have before := h span hs
    simp only [Option.map_some, Span.slice, joined, List.take_append_of_le_length before]

/-- An entry of the second script is made from the same text in the whole. -/
theorem Entry.of_joined_second (a b : List Char) (n : Node) :
    (Entry.of (joined a b) (n.relabel (Placement.second a).relabel)).unplaced =
      (Entry.of b n).unplaced := by
  have node : (n.relabel (Placement.second a).relabel).relabel .unplaced = n.relabel .unplaced := by
    rw [Node.relabel_relabel]
    rfl
  have source : (Entry.of (joined a b) (n.relabel (Placement.second a).relabel)).source =
      (Entry.of b n).source := by
    unfold Entry.of
    rw [Node.span_relabel]
    cases n.span with
    | none => rfl
    | some span =>
      have split : joined a b = (a ++ ['\n', ';', '\n']) ++ b := by simp [joined]
      have before : a.length + 3 = (a ++ ['\n', ';', '\n']).length := by simp
      show ((joined a b).take (span.stop.offset + (a.length + 3))).drop
        (span.start.offset + (a.length + 3)) = (b.take span.stop.offset).drop span.start.offset
      rw [split, before, Nat.add_comm _ (List.length _), Nat.add_comm _ (List.length _),
        List.take_length_add_append, List.drop_length_add_append]
  exact congrArg₂ Entry.mk source node

namespace Session

/-! ## Runs -/

theorem enterAll_append (host : Option Host) (es fs : List Entry) (s : Session)
    (v : Option Value) : s.enterAll host v (es ++ fs) =
      match s.enterAll host v es with
      | (.ok w, t) => t.enterAll host w fs
      | (.error o, t) => (.error o, t) := by
  induction es generalizing s v with
  | nil => rfl
  | cons e es ih =>
    rw [List.cons_append, enterAll, enterAll]
    rcases s.look with ⟨_ | _, t⟩
    · dsimp only
      rcases t.enter host e with ⟨o | w, u⟩
      · rfl
      · exact ih u (some w)
    · rfl

/-- The value before entries does not matter, if there are any. -/
theorem enterAll_cons_value (host : Option Host) (s : Session) (v w : Option Value)
    {es : List Entry} (h : es ≠ []) : s.enterAll host v es = s.enterAll host w es := by
  cases es with
  | nil => exact absurd rfl h
  | cons e es => rfl

theorem pending_enter (host : Option Host) (s : Session) (e : Entry) :
    (s.enter host e).2.pending = s.pending := by
  unfold enter
  dsimp only
  cases (check e.node s.scopes e.node.blankNotes).outcome <;> rfl

theorem pending_enterAll (host : Option Host) (es : List Entry) (s : Session) (v : Option Value) :
    (s.enterAll host v es).2.pending = s.pending := by
  induction es generalizing s v with
  | nil => rfl
  | cons e es ih =>
    have looked : s.look.2.pending = s.pending := by
      unfold look
      rcases s.world.interrupt with _ | _ | k <;> rfl
    rw [enterAll]
    rcases hl : s.look with ⟨_ | _, t⟩ <;> rw [hl] at looked
    · have entered := pending_enter host t e
      dsimp only
      rcases he : t.enter host e with ⟨o | w, u⟩ <;> rw [he] at entered
      · exact entered.trans looked
      · exact (ih u (some w)).trans (entered.trans looked)
    · exact looked

/-- An entry that gives no value fails, or leaves the submission. -/
theorem enter_ends (host : Option Host) (s : Session) (e : Entry) {o : Outcome}
    (h : (s.enter host e).1 = .error o) : (∃ f, o = .failed f) ∨ ∃ x, o = .escaped x := by
  unfold enter at h
  dsimp only at h
  cases hc : (check e.node s.scopes e.node.blankNotes).outcome with
  | error f =>
    rw [hc] at h
    cases f with
    | returnOutside span => cases h; exact .inl ⟨_, rfl⟩
    | alreadyTyped => cases h; exact .inr ⟨_, rfl⟩
  | ok t =>
    rw [hc] at h
    dsimp only at h
    rcases hr : (Eval.evaluate host Eval.maxDepth e.node rootFrame).run s.world with ⟨x | w, u⟩ <;>
      rw [hr] at h
    · cases x with
      | error | tooDeep => cases h; exact .inl ⟨_, rfl⟩
      | returned => cases h; exact .inr ⟨_, rfl⟩
    · cases h

/-- Entries that do not all give a value are interrupted, or fail, or leave the submission. -/
theorem enterAll_ends (host : Option Host) (es : List Entry) (s : Session) (w : Option Value)
    {o : Outcome} (h : (s.enterAll host w es).1 = .error o) :
    o = .interrupted ∨ (∃ f, o = .failed f) ∨ ∃ x, o = .escaped x := by
  induction es generalizing s w with
  | nil => cases h
  | cons e es ih =>
    rw [enterAll] at h
    rcases hl : s.look with ⟨_ | _, t⟩ <;> rw [hl] at h
    · dsimp only at h
      rcases he : t.enter host e with ⟨o' | w, u⟩ <;> rw [he] at h
      · cases h
        exact .inr (enter_ends host t e (by rw [he]))
      · exact ih u (some w) h
    · cases h
      exact .inl rfl

/-- Entries that do not all give a value do not end well. -/
theorem enterAll_not_done (host : Option Host) (es : List Entry) (s : Session) (w : Option Value)
    {o : Outcome} (h : (s.enterAll host w es).1 = .error o) (v : Option Value) (d : Option String) :
    o ≠ .done v d := by
  rintro rfl
  rcases enterAll_ends host es s w h with same | ⟨f, same⟩ | ⟨x, same⟩ <;> cases same

/-- The outcome of running entries. -/
def outcomeOf : Except Outcome (Option Value) → Outcome
  | .ok v => outcomeOfValue v
  | .error o => o

/-- Running a script that can be read is running its entries. -/
theorem runScript_of_entries (host : Option Host) {s : Session} {text : List Char}
    {ns : List Node} (hs : s.pending = []) (h : parseEntries text false = .ok ns) :
    s.runScript host text =
      (s.enterAll host none (ns.map (Entry.of text))).2.conclude s.sink.length text
        (outcomeOf (s.enterAll host none (ns.map (Entry.of text))).1) := by
  have reset : s.resetInput = s := by
    rw [resetInput, ← hs]
  unfold runScript submit
  rw [hs, List.nil_append, reset]
  dsimp only
  rw [h]
  dsimp only
  rcases s.enterAll host none (ns.map (Entry.of text)) with ⟨o | v, t⟩ <;> rfl

/-! ## Without spans -/

theorem outcomeOfValue_unplaced (v : Option Value) :
    outcomeOfValue (v.map (·.relabel .unplaced)) = (outcomeOfValue v).unplaced := by
  cases v with
  | none => rfl
  | some v =>
    cases v with
    | closure c =>
      show Outcome.done (some (.closure (c.relabel .unplaced))) (some (c.relabel .unplaced).text) =
        .done (some (.closure (c.relabel .unplaced))) (some c.text)
      rw [Value.text_relabel rfl]
    | datum d =>
      show outcomeOfValue (some (.datum d)) = _
      unfold outcomeOfValue
      split <;> rename_i hv
      · cases hv
      · rfl
      · cases hv
        cases Value.display? (.datum d) <;> rfl

theorem outcomeOf_unplaced (r : Except Outcome (Option Value)) :
    outcomeOf ((r.map (Option.map (·.relabel .unplaced))).mapError (·.unplaced)) =
      (outcomeOf r).unplaced := by
  cases r with
  | error o => rfl
  | ok v => exact outcomeOfValue_unplaced v

/-- The report of an outcome, but for its span, is told by the outcome but for its spans. -/
theorem ownDiagnostics_unplaced (o : Outcome) :
    (ownDiagnostics o.unplaced).map (·.relabel .unplaced) =
      (ownDiagnostics o).map (·.relabel .unplaced) := by
  cases o with
  | failed f =>
    cases f with
    | runtime e =>
      obtain ⟨fault, span⟩ := e
      cases span <;> rfl
    | _ => rfl
  | _ => rfl

theorem conclude_unplaced {s t : Session} {o o' : Outcome} (hs : s.unplaced = t.unplaced)
    (ho : o.unplaced = o'.unplaced) (before before' : Nat) (text text' : List Char) :
    (s.conclude before text o).1.outcome.unplaced =
        (t.conclude before' text' o').1.outcome.unplaced ∧
      (s.conclude before text o).2.unplaced = (t.conclude before' text' o').2.unplaced := by
  refine ⟨ho, ?_⟩
  have own : (ownDiagnostics o).map (·.relabel .unplaced) =
      (ownDiagnostics o').map (·.relabel .unplaced) := by
    rw [← ownDiagnostics_unplaced, ho, ownDiagnostics_unplaced]
  unfold unplaced at hs ⊢
  simp only [conclude, Session.mk.injEq, List.map_append, own] at hs ⊢
  exact ⟨hs.1, hs.2.1, by rw [hs.2.2.1], hs.2.2.2⟩

end Session

open Session

/-- A submission is all right if its outcome is a value. -/
theorem Submission.outcome_of_ok {r : Submission} (h : r.status = "ok") :
    ∃ v d, r.outcome = .done v d := by
  unfold status at h
  split at h
  · next v d ho => exact ⟨v, d, ho⟩
  all_goals exact absurd h (by decide)

/-- The session that a script leaves that ran to its end. -/
theorem runScript_of_ok (host : Option Host) {s : Session} {text : List Char} {ns : List Node}
    (waiting : s.pending = []) (h : parseEntries text false = .ok ns)
    (done : (s.runScript host text).1.status = "ok") :
    ∃ v, s.enterAll host none (ns.map (Entry.of text)) = (.ok v, (s.runScript host text).2) := by
  have ran := runScript_of_entries host waiting h
  have ended : ∀ o, (s.enterAll host none (ns.map (Entry.of text))).1 = .error o →
      ∀ v d, o ≠ .done v d := fun _ h => enterAll_not_done host _ s none h
  rcases r : s.enterAll host none (ns.map (Entry.of text)) with ⟨o | v, t⟩ <;>
    rw [r] at ran ended <;> rw [ran] at done ⊢ <;>
    obtain ⟨w, d, outcome⟩ := Submission.outcome_of_ok done
  · exact absurd outcome (ended o rfl w d)
  · change outcomeOfValue v = _ at outcome
    simp only [conclude, outcomeOf, outcome, ownDiagnostics, List.append_nil]
    exact ⟨v, rfl⟩

/-- Running a script to its end and then another one, which has entries, does the same as running
them as one, but for spans: the last outcome, all diagnostics, and the session afterwards, in which
there are the calls of the host, the values and types of names, and the history. -/
theorem runScript_joined (host : Option Host) {s : Session} {a b : List Char} {as bs : List Node}
    (waiting : s.pending = []) (ha : parseEntries a false = .ok as)
    (hb : parseEntries b false = .ok bs) (more : bs ≠ [])
    (done : (s.runScript host a).1.status = "ok") :
    let first := s.runScript host a
    let second := first.2.runScript host b
    let whole := s.runScript host (joined a b)
    whole.1.outcome.unplaced = second.1.outcome.unplaced ∧
      whole.1.diagnostics.map (·.relabel .unplaced) =
        (first.1.diagnostics ++ second.1.diagnostics).map (·.relabel .unplaced) ∧
      whole.2.unplaced = second.2.unplaced := by
  intro first second whole
  obtain ⟨parsed, near⟩ := parseEntries_joined ha hb
  -- the first script comes to its end, ...
  obtain ⟨v, ran⟩ := runScript_of_ok host waiting ha done
  change _ = (_, first.2) at ran
  have still : first.2.pending = [] := by
    rw [← waiting, ← pending_enterAll host (as.map (Entry.of a)) s none, ran]
  -- ... so that the whole goes on as the second one does, but for spans
  have hsecond : second = _ := runScript_of_entries host still hb
  have hwhole : whole = _ := runScript_of_entries host waiting parsed
  have here : as.map (Entry.of (joined a b)) = as.map (Entry.of a) :=
    List.map_congr_left fun n hn => Entry.of_joined_first b (near n hn)
  have there : ((Node.relabelAll (Placement.second a).relabel bs).map
      (Entry.of (joined a b))).map (·.unplaced) = (bs.map (Entry.of b)).map (·.unplaced) := by
    rw [Node.relabelAll_eq_map, List.map_map, List.map_map, List.map_map]
    exact List.map_congr_left fun n _ => Entry.of_joined_second a b n
  have entries : (bs.map (Entry.of b)).map (·.unplaced) ≠ [] := by simpa using more
  rw [List.map_append, here, enterAll_append, ran] at hwhole
  dsimp only at hwhole
  have same : endUnplaced (Option.map (·.relabel .unplaced)) (first.2.enterAll host v
        ((Node.relabelAll (Placement.second a).relabel bs).map (Entry.of (joined a b)))) =
      endUnplaced (Option.map (·.relabel .unplaced))
        (first.2.enterAll host none (bs.map (Entry.of b))) := by
    rw [← enterAll_unplaced, ← enterAll_unplaced, there]
    exact enterAll_cons_value host _ _ _ entries
  obtain ⟨result, session⟩ := Prod.mk.inj same
  have outcome := congrArg outcomeOf result
  rw [outcomeOf_unplaced, outcomeOf_unplaced] at outcome
  obtain ⟨outcome, session⟩ :=
    conclude_unplaced session outcome s.sink.length first.2.sink.length (joined a b) b
  rw [← hwhole, ← hsecond] at outcome session
  refine ⟨outcome, ?_, session⟩
  -- what a script reports is what the session has got from it
  have sinks : whole.2.sink.map (·.relabel .unplaced) = second.2.sink.map (·.relabel .unplaced) :=
    congrArg Session.sink session
  rw [show whole.2.sink = s.sink ++ whole.1.diagnostics from sink_submit host s _ false,
    show second.2.sink = first.2.sink ++ second.1.diagnostics from sink_submit host _ b false,
    show first.2.sink = s.sink ++ first.1.diagnostics from sink_submit host s a false,
    List.append_assoc, List.map_append, List.map_append] at sinks
  exact List.append_cancel_left sinks

/-- A script with a comment at its end. -/
def countSample : List Char := "let $n = 1; echo $n # one".toList

/-- A script that goes on with what the other one leaves. -/
def adderScript : List Char :=
  "let $f = fn($x) { $x + $n }\necho \"twice $(3 + 4)\"; $f(2)".toList

theorem runScript_joined_countSample :
    ∃ as bs, parseEntries countSample false = .ok as ∧ parseEntries adderScript false = .ok bs ∧
      bs ≠ [] ∧ (initial.runScript echoHost countSample).1.status = "ok" ∧
      (let first := initial.runScript echoHost countSample
        let second := first.2.runScript echoHost adderScript
        let whole := initial.runScript echoHost (joined countSample adderScript)
        whole.1.outcome.unplaced = second.1.outcome.unplaced ∧
          whole.1.diagnostics.map (·.relabel .unplaced) =
            (first.1.diagnostics ++ second.1.diagnostics).map (·.relabel .unplaced) ∧
          whole.2.unplaced = second.2.unplaced ∧ second.1.display? = some "3" ∧
          whole.2.world.calls = [⟨"echo", ["1"], none⟩, ⟨"echo", ["twice 7"], none⟩]) := by
  have first : (parseEntries countSample false).toOption.map List.length = some 2 := by
    decide +kernel
  have second : (parseEntries adderScript false).toOption.map List.length = some 3 := by
    decide +kernel
  rcases ha : parseEntries countSample false with _ | as <;> rw [ha] at first
  · cases first
  rcases hb : parseEntries adderScript false with _ | bs <;> rw [hb] at second
  · cases second
  have more : bs ≠ [] := by
    rintro rfl
    cases second
  have done : (initial.runScript echoHost countSample).1.status = "ok" := by decide +kernel
  obtain ⟨outcome, diagnostics, session⟩ := runScript_joined echoHost rfl ha hb more done
  exact ⟨as, bs, rfl, rfl, more, done, outcome, diagnostics, session, by decide +kernel,
    by decide +kernel⟩

end Sigil
