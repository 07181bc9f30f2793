import Sigil.Proofs.Session.Answers
import Sigil.Proofs.Session.Documents
import Sigil.Proofs.Session.Kept
import Sigil.Proofs.Typing.Complete

/-!
# The account of diagnostics

The sink of a session holds the diagnostics of all answers that it has given,
each once and in order, and an answer has an error exactly if it says so
(`serveAll_accounts`).

Two parts of a submission report: the checker, which reports warnings and, if
it stops, the fault that it stops at (`check_diagnostics`), and the end of the
submission, which reports a failure that has not been reported yet. So after
every entry the sink has grown by warnings and, once the report is added that
the end of the submission is still to make, by the error of the outcome
(`enter_accounts`, `enterAll_accounts`).
-/

namespace Sigil

/-- The error that an outcome is reported with. -/
def Outcome.errors : Outcome → List Diagnostic
  | failed f => [f.diagnostic]
  | _ => []

/-- Diagnostics that end with the errors given, and have only warnings before them. -/
def WarnsThen (ds errors : List Diagnostic) : Prop :=
  ∃ ws : List Diagnostic, ds = ws ++ errors ∧ ∀ w ∈ ws, w.severity = .warning

theorem WarnsThen.refl (errors : List Diagnostic) : WarnsThen errors errors :=
  ⟨[], rfl, fun _ h => absurd h List.not_mem_nil⟩

theorem WarnsThen.append {ds es errors : List Diagnostic} (h : WarnsThen ds [])
    (k : WarnsThen es errors) : WarnsThen (ds ++ es) errors := by
  obtain ⟨vs, rfl, early⟩ := h
  obtain ⟨ws, rfl, late⟩ := k
  refine ⟨vs ++ ws, by simp only [List.append_nil, List.append_assoc], fun w hw => ?_⟩
  exact (List.mem_append.mp hw).elim (early w) (late w)

/-- The checker reports warnings, and after them the fault that it stops at. -/
theorem check_diagnostics (n : Node) (scopes : Scopes) :
    let c := check n scopes n.blankNotes
    WarnsThen c.diagnostics
      (match c.outcome with
        | .error f => (Session.outcomeOfFault f).errors
        | .ok _ => []) := by
  have blank : n.blankNotes.size = n.walk.length := Array.size_replicate
  have covered := Check.node_covers n ⟨scopes, [], [], n.blankNotes, 0⟩
    (fun i _ => n.typeAt_blankNotes i) (by simp only [blank, Nat.zero_add, Nat.le_refl])
  unfold Check.Meets at covered
  rcases run : (Check.node n).run ⟨scopes, [], [], n.blankNotes, 0⟩ with ⟨r, d⟩
  have checked : check n scopes n.blankNotes =
      ⟨r, d.diagnostics, d.notes, d.scopes.leaveAll⟩ := by
    rw [check, run]
  rw [run] at covered
  rw [checked]
  cases r with
  | error f =>
    obtain ⟨span, rfl, -, -, ws, reports, warnings⟩ := covered
    exact ⟨ws, reports, warnings⟩
  | ok t =>
    obtain ⟨ws, reports, warnings⟩ := covered.warns
    exact ⟨ws, by simpa using reports, warnings⟩

namespace Session

variable (host : Option Host)

/-! ## One submission -/

/-- The end of a submission reports an error that the checker has not reported. -/
theorem ownDiagnostics_eq_errors {o : Outcome} (h : ∀ span, o ≠ .failed (.misplacedReturn span)) :
    ownDiagnostics o = o.errors := by
  cases o with
  | failed f =>
    cases f with
    | misplacedReturn span => exact absurd rfl (h span)
    | lex | parse | runtime => rfl
  | done | incomplete | interrupted | escaped => rfl

theorem ownDiagnostics_outcomeOfExit (n : Node) (x : Exit) :
    ownDiagnostics (outcomeOfExit n x) = (outcomeOfExit n x).errors := by
  cases x <;> rfl

theorem ownDiagnostics_outcomeOfValue_eq (v : Option Value) :
    ownDiagnostics (outcomeOfValue v) = (outcomeOfValue v).errors := by
  refine ownDiagnostics_eq_errors fun span => ?_
  unfold outcomeOfValue
  split
  · exact fun h => by cases h
  · exact fun h => by cases h
  · split <;> exact fun h => by cases h

/-- An entry makes the sink grow by warnings. If it gives no value, the error of its outcome follows
them, which the end of the submission reports unless the checker has. -/
theorem enter_accounts (s : Session) (e : Entry) :
    ∃ reports, (s.enter host e).2.sink = s.sink ++ reports ∧
      match (s.enter host e).1 with
      | .ok _ => WarnsThen reports []
      | .error o => WarnsThen (reports ++ ownDiagnostics o) o.errors := by
  have checked := check_diagnostics e.node s.scopes
  unfold enter
  dsimp only at checked ⊢
  cases hc : (check e.node s.scopes e.node.blankNotes).outcome with
  | error f =>
    rw [hc] at checked
    have own : ownDiagnostics (outcomeOfFault f) = [] := by cases f <;> rfl
    refine ⟨_, rfl, ?_⟩
    dsimp only
    rw [own, List.append_nil]
    exact checked
  | ok t =>
    rw [hc] at checked
    refine ⟨_, rfl, ?_⟩
    dsimp only
    rcases (Eval.evaluate host Eval.maxDepth e.node rootFrame).run s.world with ⟨x | v, w⟩
    · exact checked.append (ownDiagnostics_outcomeOfExit e.node x ▸ .refl _)
    · exact checked

/-- Entries make the sink grow by warnings, followed by the error of their outcome, once the
submission has ended. -/
theorem enterAll_accounts (es : List Entry) (s : Session) (v : Option Value) :
    ∃ reports, (s.enterAll host v es).2.sink = s.sink ++ reports ∧
      WarnsThen (reports ++ ownDiagnostics (outcomeOf (s.enterAll host v es).1))
        (outcomeOf (s.enterAll host v es).1).errors := by
  induction es generalizing s v with
  | nil => exact ⟨[], (List.append_nil _).symm, ownDiagnostics_outcomeOfValue_eq v ▸ .refl _⟩
  | cons e es ih =>
    have looked := sink_look s
    rw [enterAll]
    rcases hl : s.look with ⟨_ | _, t⟩ <;> rw [hl] at looked <;> dsimp only at looked ⊢
    case true => exact ⟨[], looked.trans (List.append_nil _).symm, .refl _⟩
    obtain ⟨reports, sink, warns⟩ := enter_accounts host t e
    rw [looked] at sink
    rcases he : t.enter host e with ⟨o | w, u⟩ <;> rw [he] at sink warns <;> dsimp only at sink warns ⊢
    · exact ⟨reports, sink, warns⟩
    · obtain ⟨more, grown, rest⟩ := ih u (some w)
      refine ⟨reports ++ more, by rw [grown, sink, List.append_assoc], ?_⟩
      rw [List.append_assoc]
      exact warns.append rest

/-- The diagnostics of a submission are warnings, followed by the error of its outcome. -/
theorem submit_accounts (s : Session) (text : List Char) (openEnded : Bool) :
    let r := (s.submit host text openEnded).1
    WarnsThen r.diagnostics r.outcome.errors := by
  intro r
  have conclude (t : Session) (o : Outcome) {reports : List Diagnostic}
      (h : t.sink = s.sink ++ reports) (k : WarnsThen (reports ++ ownDiagnostics o) o.errors) :
      WarnsThen (t.conclude s.sink.length (s.pending ++ text) o).1.diagnostics o.errors := by
    show WarnsThen ((t.sink ++ ownDiagnostics o).drop s.sink.length) o.errors
    rw [h, List.append_assoc, List.drop_left]
    exact k
  cases read : parseEntries (s.pending ++ text) openEnded with
  | ok ns =>
    have ran : r = _ := congrArg Prod.fst (submit_of_entries host read)
    obtain ⟨reports, sink, warns⟩ := enterAll_accounts host (ns.map (Entry.of (s.pending ++ text)))
      s.resetInput none
    rw [ran]
    exact conclude _ _ sink warns
  | error stop =>
    have answer : r = (s.submit host text openEnded).1 := rfl
    unfold submit at answer
    dsimp only at answer
    rw [read] at answer
    rw [answer]
    cases stop with
    | needsMore => exact .refl _
    | lex | parse | exhausted => exact conclude s.resetInput _ (List.append_nil _).symm (.refl _)

/-- A submission ends with an error only by a failure. -/
theorem failure_of_status (s : Session) (text : List Char) (openEnded : Bool) :
    let r := (s.submit host text openEnded).1
    if r.status = "error" then ∃ f, r.outcome = .failed f else r.outcome.errors = [] := by
  intro r
  have answered : r.outcome.isAnswer := by
    cases read : parseEntries (s.pending ++ text) openEnded with
    | error stop =>
      have cases := parseEntries_cases (s.pending ++ text) openEnded
      rw [read] at cases
      rw [show r.outcome = _ from (submit_of_error host read).1]
      cases stop with
      | exhausted => exact absurd rfl cases
      | needsMore | lex | parse => rfl
    | ok ns =>
      rw [show r = _ from congrArg Prod.fst (submit_of_entries host read)]
      show (outcomeOf (s.resetInput.enterAll host none _).1).isAnswer
      cases ran : (s.resetInput.enterAll host none (ns.map (Entry.of (s.pending ++ text)))).1 with
      | ok v => exact outcomeOfValue_isAnswer v
      | error o => exact enterAll_isAnswer host _ _ none ran
  unfold Submission.status
  cases ended : r.outcome with
  | failed f => exact ⟨f, rfl⟩
  | escaped e => rw [ended] at answered; cases answered
  | done | incomplete | interrupted => exact rfl

/-! ## A whole session -/

/-- The answer to a request, if it has one. -/
def answer? (s : Session) : Request → Option Submission
  | .submit text openEnded => some (s.submit host text openEnded).1
  | .resetInput | .schedule _ => none

/-- The answers to requests, in order. -/
def answers (s : Session) : List Request → List Submission
  | [] => []
  | r :: rs => (s.answer? host r).toList ++ (s.serve host r).answers rs

/-- What a new session is asked by its prelude: to run it, unless it is empty. -/
def preludeRequests (prelude : List Char) : List Request :=
  if prelude.isEmpty then [] else [.submit prelude false]

theorem start_eq_serveAll (s : Session) (prelude : List Char) :
    (s.start host prelude).2 = s.serveAll host (preludeRequests prelude) := by
  unfold start preludeRequests
  split <;> rfl

/-- A request makes the sink grow by the diagnostics of its answer. -/
theorem sink_serve (s : Session) (r : Request) :
    (s.serve host r).sink = s.sink ++ (s.answer? host r).toList.flatMap (·.diagnostics) := by
  cases r with
  | submit text openEnded =>
    rw [answer?, Option.toList_some, List.flatMap_singleton]
    exact sink_submit host s text openEnded
  | resetInput | schedule => exact (List.append_nil _).symm

theorem sink_serveAll (rs : List Request) (s : Session) :
    (s.serveAll host rs).sink = s.sink ++ (s.answers host rs).flatMap (·.diagnostics) := by
  induction rs generalizing s with
  | nil => exact (List.append_nil _).symm
  | cons r rs ih =>
    rw [answers, List.flatMap_append, ← List.append_assoc, ← sink_serve]
    exact ih (s.serve host r)

/-- Every answer was given by a submission. -/
theorem exists_submit_of_mem_answers {rs : List Request} {s : Session} {r : Submission}
    (h : r ∈ s.answers host rs) :
    ∃ (t : Session) (text : List Char) (openEnded : Bool), r = (t.submit host text openEnded).1 := by
  induction rs generalizing s with
  | nil => cases h
  | cons request rs ih =>
    rw [answers] at h
    rcases List.mem_append.mp h with h | h
    · cases request with
      | submit text openEnded => exact ⟨s, text, openEnded, List.mem_singleton.mp h⟩
      | resetInput | schedule => cases h
    · exact ih h

/-- A session with a prelude that serves requests is a session that serves the prelude and then the
requests. Its sink then holds the diagnostics of the answers, each once and in order. An answer
whose status is an error holds one error, the report of its failure, after all warnings; any other
answer holds only warnings. -/
theorem serveAll_accounts (looks : Option Nat) (prelude : List Char) (rs : List Request) :
    let fresh := initial.schedule looks
    let asked := preludeRequests prelude ++ rs
    (fresh.start host prelude).2.serveAll host rs = fresh.serveAll host asked ∧
      (fresh.serveAll host asked).sink = (fresh.answers host asked).flatMap (·.diagnostics) ∧
      ∀ r ∈ fresh.answers host asked,
        if r.status = "error" then
          ∃ f ws, r.failure? = some f ∧ r.diagnostics = ws ++ [f.diagnostic] ∧
            f.diagnostic.severity = .error ∧ ∀ w ∈ ws, w.severity = .warning
        else ∀ d ∈ r.diagnostics, d.severity = .warning := by
  intro fresh asked
  refine ⟨?_, sink_serveAll host asked fresh, fun r hr => ?_⟩
  · rw [start_eq_serveAll]
    exact List.foldl_append.symm
  · obtain ⟨t, text, openEnded, rfl⟩ := exists_submit_of_mem_answers host hr
    have status := failure_of_status host t text openEnded
    obtain ⟨ws, reports, warnings⟩ := submit_accounts host t text openEnded
    dsimp only at status
    split at status
    · next error =>
      obtain ⟨f, failed⟩ := status
      rw [if_pos error, Submission.failure?, failed]
      exact ⟨f, ws, rfl, by rw [reports, failed]; rfl, rfl, warnings⟩
    · next fine =>
      rw [status, List.append_nil] at reports
      rw [if_neg fine, reports]
      exact warnings

end Session

end Sigil
