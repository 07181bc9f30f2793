import Sigil.Document
import Sigil.Proofs.Session.Batch
import Sigil.Proofs.Typing.Entries

/-!
# Scripts and documents

An editor shows of a text what running it reports (`runScript_diagnostics`). A
document is read and checked as one tree, a script is read entry by entry and
each entry is checked when it is about to run; but both readers fail alike
(`parseProgram_entries`), checking the tree reports what checking the entries
reports (`check_program`), and what the entries do when they run is nothing to
the checker (`Session.enterAll_reports`).
-/

namespace Sigil

/-! ## Reading -/

/-- A script is read as a tree exactly if its entries can be read, and then these are the entries of
the tree; otherwise both stop for the same reason. -/
theorem parseProgram_entries (text : List Char) :
    match parseEntries text false with
    | .ok ns => ∃ span, parseProgram text = .ok (.program span ns)
    | .error e => parseProgram text = .error e := by
  unfold parseProgram parseEntries
  generalize Parser.expressionUpTo (text.length + 1) = expression
  generalize Stream.ofLexed (tokenize text) false 0 = s
  rw [Parser.run_program]
  cases first : s.peek 0 with
  | error e =>
    rw [Parser.run_entries_error expression none first]
    rfl
  | ok start =>
    cases (Parser.entries expression none).run s with
    | error e => rfl
    | ok r => exact ⟨_, rfl⟩

/-! ## Running -/

/-- Whether a run ended while entries may have been left that were not checked. -/
def Outcome.isStopped : Outcome → Bool
  | failed (.runtime _) | interrupted | escaped _ => true
  | _ => false

namespace Session

theorem outcomeOfExit_isStopped (n : Node) (e : Exit) : (outcomeOfExit n e).isStopped := by
  cases e <;> rfl

/-- An outcome that is not of a stopped run is one that reports nothing of its own. -/
theorem ownDiagnostics_outcomeOfValue (v : Option Value)
    (h : (outcomeOfValue v).isStopped = false) : ownDiagnostics (outcomeOfValue v) = [] := by
  unfold outcomeOfValue at h ⊢
  split at h
  · rfl
  · rfl
  · split at h
    · rfl
    · cases h

theorem scopes_look (s : Session) : s.look.2.scopes = s.scopes := by
  unfold look
  split <;> rfl

/-- A session gets from an entry what checking it reports. Where the checker goes on, the entry
fails only when it runs. -/
theorem enter_reports (host : Option Host) (s : Session) (e : Entry) :
    let c := check e.node s.scopes e.node.blankNotes
    let r := s.enter host e
    r.2.sink = s.sink ++ c.diagnostics ∧ r.2.scopes = c.scopes ∧
      match c.outcome with
      | .error f => r.1 = .error (outcomeOfFault f)
      | .ok _ => ∀ o, r.1 = .error o → o.isStopped := by
  intro c r
  have entered : r = s.enter host e := rfl
  unfold enter at entered
  dsimp only at entered
  change r = match c.outcome with
    | .error f => _
    | .ok _ => _ at entered
  cases hc : c.outcome with
  | error f =>
    rw [hc] at entered
    rw [entered]
    exact ⟨rfl, rfl, rfl⟩
  | ok type =>
    rw [hc] at entered
    dsimp only at entered
    rw [entered]
    refine ⟨rfl, rfl, fun o ho => ?_⟩
    rcases ran : ((Eval.evaluate host Eval.maxDepth e.node rootFrame).run s.world).1 with x | w <;>
      rw [ran] at ho <;> cases ho
    exact outcomeOfExit_isStopped e.node x

/-- A session gets from entries what checking them reports, up to the one where it stops. -/
theorem enterAll_reports (host : Option Host) (es : List Entry) (s : Session) (v : Option Value) :
    let r := s.enterAll host v es
    let reports := reportsOf s.scopes (es.map (·.node))
    ∃ seen, r.2.sink = s.sink ++ seen ∧ seen <+: reports ∧
      ((outcomeOf r.1).isStopped = false → seen = reports ∧ ownDiagnostics (outcomeOf r.1) = []) := by
  induction es generalizing s v with
  | nil =>
    exact ⟨[], (List.append_nil _).symm, List.prefix_rfl, fun go =>
      ⟨rfl, ownDiagnostics_outcomeOfValue v go⟩⟩
  | cons e es ih =>
    have looked := sink_look s
    have scopes := scopes_look s
    rw [List.map_cons, reportsOf, enterAll]
    rcases hl : s.look with ⟨_ | _, t⟩ <;> rw [hl] at looked scopes <;> dsimp only at looked scopes ⊢
    case true =>
      exact ⟨[], by rw [looked, List.append_nil], List.nil_prefix, fun go => by cases go⟩
    obtain ⟨sink, known, ended⟩ := enter_reports host t e
    rw [← scopes, ← looked]
    generalize check e.node t.scopes e.node.blankNotes = c at sink known ended
    rcases hr : t.enter host e with ⟨o | w, u⟩ <;> rw [hr] at sink known ended <;>
      dsimp only at sink known ⊢
    · -- the entry does not end with a value: the checker stopped at it, or it failed when it ran
      refine ⟨c.diagnostics, sink, List.prefix_append _ _, fun go => ?_⟩
      cases hc : c.outcome with
      | error f =>
        rw [hc] at ended
        cases ended
        cases f with
        | returnOutside span => exact ⟨(List.append_nil _).symm, rfl⟩
        | alreadyTyped => cases go
      | ok type =>
        rw [hc] at ended
        cases (ended o rfl).symm.trans go
    · obtain ⟨seen, hseen, part, all⟩ := ih u (some w)
      cases hc : c.outcome with
      | error f =>
        rw [hc] at ended
        cases ended
      | ok type =>
        rw [known] at part all
        refine ⟨c.diagnostics ++ seen, ?_, (List.prefix_append_right_inj _).mpr part, fun go => ?_⟩
        · rw [hseen, sink, List.append_assoc]
        · exact ⟨congrArg _ (all go).1, (all go).2⟩

end Session

open Session

/-- An editor shows of a text what a new session reports when it runs the text as a script: the same
reports in the same order, if all entries run or the text cannot be read or has a misplaced
`return`. If an entry fails when it runs, that failure is reported last, and the reports before it
are among those of the document, from the first on. -/
theorem runScript_diagnostics (host : Option Host) (text : List Char) :
    let r := (initial.runScript host text).1
    let shown := (Document.ofText text).diagnostics
    match r.outcome with
    | .done .. | .incomplete | .failed (.lex _) | .failed (.parse _)
    | .failed (.misplacedReturn _) => r.diagnostics = shown
    | .failed (.runtime e) =>
      ∃ seen, r.diagnostics = seen ++ [(Failure.runtime e).diagnostic] ∧ seen <+: shown
    | .interrupted | .escaped _ => r.diagnostics <+: shown := by
  intro r shown
  have program := parseProgram_entries text
  cases read : parseEntries text false with
  | error e =>
    rw [read] at program
    have answer : r = (initial.submit host text false).1 := rfl
    have document : shown = (Document.ofText text).diagnostics := rfl
    unfold submit at answer
    unfold Document.ofText at document
    dsimp only at answer
    rw [show initial.pending ++ text = text from rfl, read] at answer
    rw [program] at document
    rw [answer, document]
    cases e with
    | lex | parse | needsMore => rfl
    | exhausted => exact List.prefix_rfl
  | ok ns =>
    rw [read] at program
    obtain ⟨span, program⟩ := program
    have document : shown = reportsOf Scopes.empty ns := by
      rw [← check_program span ns]
      show (Document.ofText text).diagnostics = _
      unfold Document.ofText
      rw [program]
    have nodes : (ns.map (Entry.of text)).map (·.node) = ns := by
      rw [List.map_map]
      exact List.map_id ns
    obtain ⟨seen, sink, part, all⟩ := enterAll_reports host (ns.map (Entry.of text)) initial none
    rw [nodes] at part all
    have answer : r = _ := congrArg Prod.fst (runScript_of_entries host rfl read)
    have diagnostics : r.diagnostics = seen ++ ownDiagnostics r.outcome := by
      rw [answer]
      show ((enterAll host initial none _).2.sink ++ _).drop 0 = _
      rw [sink]
      rfl
    have outcome : r.outcome = outcomeOf (initial.enterAll host none (ns.map (Entry.of text))).1 := by
      rw [answer]
      rfl
    rw [← outcome] at all
    rw [diagnostics, document]
    generalize r.outcome = o at all
    cases o with
    | done | incomplete => exact (List.append_nil seen).trans (all rfl).1
    | interrupted | escaped => exact (List.append_nil seen).symm ▸ part
    | failed f =>
      cases f with
      | lex | parse =>
        -- entries that were read do not fail so
        cases (all rfl).2
      | misplacedReturn => exact (List.append_nil seen).trans (all rfl).1
      | runtime e => exact ⟨seen, rfl, part⟩

end Sigil
