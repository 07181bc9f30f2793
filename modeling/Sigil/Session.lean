import Sigil.Evaluation
import Sigil.Node.Parser
import Sigil.Text.Lines
import Sigil.Typing

/-!
# Sessions

A session takes in texts one after the other and remembers what they did:
the values and the types of names, the entries that were run, and all
diagnostics. A text is read as a whole before anything in it runs; then its
entries are checked and run in order, until one of them fails or the user
interrupts. A text that ends within a construct is kept, and the next one
continues it.

The diagnostics of a submission are those that the session got from it
(`sink_submit`).
-/

namespace Sigil

/-- Why a submission failed. -/
inductive Failure where
  | lex (e : LexError)
  | parse (e : ParseError)
  /-- There is a `return` outside of every function. -/
  | misplacedReturn (span : Option Span)
  | runtime (e : RuntimeError)
deriving DecidableEq

namespace Failure

/-- What kind of report a failure is. -/
def code : Failure → DiagnosticCode
  | lex _ => .lexError
  | parse _ => .parseError
  | misplacedReturn _ => .returnOutsideFunction
  | runtime _ => .runtimeError

/-- The failure in words. -/
def message : Failure → String
  | lex e => e.fault.message
  | parse e => e.message
  | misplacedReturn _ => Finding.returnOutside.message
  | runtime e => e.fault.message

/-- What the failure is about. -/
def span : Failure → Option Span
  | lex e => some (.point e.position)
  | parse e => some (.point e.position)
  | misplacedReturn span => span
  | runtime e => e.span

/-- Where the failure is shown. -/
def position (f : Failure) : Option Position :=
  f.span.map (·.start)

/-- The report of a failure. -/
def diagnostic (f : Failure) : Diagnostic :=
  ⟨.error, f.code, f.message, f.span⟩

/-- Whether the checker has already reported the failure. -/
def isReported : Failure → Bool
  | misplacedReturn _ => true
  | _ => false

/-- A failure as it is shown to the user: with its place, and under it the line of the text with a
mark, if the text has such a line. -/
def format (f : Failure) (source : List Char) : String :=
  match f.position with
  | none => f.message
  | some p =>
    let head := s!"Error on line {p.line}, col {p.column}: {f.message}"
    if p.line = 0 then head
    else match (Text.splitAtChar '\n' source)[p.line - 1]? with
      | none => head
      | some line =>
        head ++ "\n  " ++ String.ofList line ++ "\n  " ++
          String.ofList (List.replicate (p.column - 1) ' ') ++ "^"

end Failure

/-- A way out of a submission that none takes: reading gave up, a node got a second type, or a
`return` met no call. -/
inductive Escape where
  | exhausted
  | retyped (kind : String) (span : Option Span) (type : Ty)
  | returned (v : Value)

/-- How a submission ended. -/
inductive Outcome where
  /-- Everything ran; the value is that of the last entry, if there was one, and is shown unless it
  is the unit. -/
  | done (value : Option Value) (display : Option String)
  /-- The text ends within a construct. -/
  | incomplete
  | interrupted
  | failed (f : Failure)
  | escaped (e : Escape)

/-- The answer to a submission. -/
structure Submission where
  outcome : Outcome
  diagnostics : List Diagnostic
  /-- The text that was read, with what was kept of earlier ones. -/
  source : List Char

namespace Submission

/-- The outcome in one word. -/
def status (r : Submission) : String :=
  match r.outcome with
  | .done .. => "ok"
  | .incomplete => "incomplete"
  | .interrupted => "interrupted"
  | .failed _ | .escaped _ => "error"

/-- The failure, if there was one. -/
def failure? (r : Submission) : Option Failure :=
  match r.outcome with
  | .failed f => some f
  | _ => none

/-- The text that is shown for the value. -/
def display? (r : Submission) : Option String :=
  match r.outcome with
  | .done _ display => display
  | _ => none

/-- The failure as it is shown to the user; nothing without one. -/
def formatError (r : Submission) : String :=
  (r.failure?.map (·.format r.source)).getD ""

end Submission

/-- An entry that is to run, or has run, with the text that it was read from. -/
structure Entry where
  source : List Char
  node : Node

/-- The entry that a node of a text is. -/
def Entry.of (source : List Char) (n : Node) : Entry :=
  ⟨(n.span.map (·.slice source)).getD [], n⟩

/-- What a session remembers. -/
structure Session where
  world : World
  scopes : Scopes
  /-- All diagnostics, in order. -/
  sink : List Diagnostic
  /-- The entries that ran, in order. -/
  history : List Entry
  /-- The text that the next submission continues. -/
  pending : List Char

namespace Session

/-- A session in which nothing has happened. -/
def initial : Session := ⟨World.initial, Scopes.empty, [], [], []⟩

/-- Forgets a text that waits for its rest. -/
def resetInput (s : Session) : Session :=
  { s with pending := [] }

/-- From when on a session finds itself interrupted: after so many more looks, or never. -/
def schedule (s : Session) (looks : Option Nat) : Session :=
  { s with world := { s.world with interrupt := looks } }

/-- One look at whether the session is interrupted. -/
def look (s : Session) : Bool × Session :=
  match s.world.interrupt with
  | none => (false, s)
  | some 0 => (true, s)
  | some (k + 1) => (false, s.schedule (some k))

/-- How an entry ended that the checker stopped at. -/
def outcomeOfFault : BindFault → Outcome
  | .returnOutside span => .failed (.misplacedReturn span)
  | .alreadyTyped kind span type => .escaped (.retyped kind span type)

/-- How an entry ended that gave no value. -/
def outcomeOfExit (n : Node) : Exit → Outcome
  | .error e => .failed (.runtime e)
  | .returned v => .escaped (.returned v)
  | .tooDeep => .failed (.runtime ⟨.tooDeep, n.span⟩)

/-- Checks an entry and runs it. -/
def enter (host : Option Host) (s : Session) (e : Entry) : Except Outcome Value × Session :=
  let c := check e.node s.scopes e.node.blankNotes
  let s := { s with
    history := s.history ++ [e], scopes := c.scopes, sink := s.sink ++ c.diagnostics }
  match c.outcome with
  | .error f => (.error (outcomeOfFault f), s)
  | .ok _ =>
    let (r, world) := (Eval.evaluate host Eval.maxDepth e.node rootFrame).run s.world
    (r.mapError (outcomeOfExit e.node), { s with world })

/-- Runs entries in order; `v` is the value of the one before them. -/
def enterAll (host : Option Host) (s : Session) (v : Option Value) :
    List Entry → Except Outcome (Option Value) × Session
  | [] => (.ok v, s)
  | e :: es =>
    match s.look with
    | (true, s) => (.error .interrupted, s)
    | (false, s) =>
      match s.enter host e with
      | (.ok v, s) => enterAll host s (some v) es
      | (.error o, s) => (.error o, s)

/-- The outcome that a last value makes: an integer may be too long to be shown. -/
def outcomeOfValue : Option Value → Outcome
  | none => .done none none
  | some .unit => .done (some .unit) none
  | some v =>
    match v.display? with
    | some display => .done (some v) (some display)
    | none => .failed (.runtime ⟨.integerTooLong, none⟩)

/-- The report that an outcome adds to those of the checker. -/
def ownDiagnostics : Outcome → List Diagnostic
  | .failed f => if f.isReported then [] else [f.diagnostic]
  | _ => []

/-- Ends a submission that began when the session had so many diagnostics. -/
def conclude (s : Session) (before : Nat) (source : List Char) (o : Outcome) :
    Submission × Session :=
  let s := { s with sink := s.sink ++ ownDiagnostics o }
  (⟨o, s.sink.drop before, source⟩, s)

/-- Submits a text. If it may be continued, one that ends within a construct is kept and does
nothing yet. -/
def submit (host : Option Host) (s : Session) (text : List Char) (openEnded : Bool) :
    Submission × Session :=
  let source := s.pending ++ text
  let before := s.sink.length
  let s := s.resetInput
  match parseEntries source openEnded with
  | .error (.needsMore _) => (⟨.incomplete, [], source⟩, { s with pending := source ++ ['\n'] })
  | .error (.lex e) => s.conclude before source (.failed (.lex e))
  | .error (.parse e) => s.conclude before source (.failed (.parse e))
  | .error .exhausted => s.conclude before source (.escaped .exhausted)
  | .ok nodes =>
    match s.enterAll host none (nodes.map (Entry.of source)) with
    | (.ok v, s) => s.conclude before source (outcomeOfValue v)
    | (.error o, s) => s.conclude before source o

/-- Submits a text that has to be complete. -/
def runScript (host : Option Host) (s : Session) (text : List Char) : Submission × Session :=
  s.submit host text false

/-- A session that begins by running a text, unless that is empty, with the warning that is logged
if it fails. -/
def start (host : Option Host) (s : Session) (prelude : List Char) : Option String × Session :=
  if prelude.isEmpty then (none, s)
  else
    let (r, s) := s.runScript host prelude
    (if r.status = "error" then some ("prelude failed: " ++ r.formatError) else none, s)

/-! ## What stays -/

theorem sink_schedule (s : Session) (looks : Option Nat) : (s.schedule looks).sink = s.sink := rfl

/-- Looking changes no diagnostics. -/
theorem sink_look (s : Session) : s.look.2.sink = s.sink := by
  unfold look; split <;> rfl

/-- Running an entry only adds diagnostics. -/
theorem sink_prefix_enter (host : Option Host) (s : Session) (e : Entry) :
    s.sink <+: (s.enter host e).2.sink := by
  unfold enter; dsimp only; split <;> exact List.prefix_append ..

/-- Running entries only adds diagnostics. -/
theorem sink_prefix_enterAll (host : Option Host) (es : List Entry) (s : Session)
    (v : Option Value) : s.sink <+: (s.enterAll host v es).2.sink := by
  induction es generalizing s v with
  | nil => exact List.prefix_rfl
  | cons e es ih =>
    have look := sink_look s
    unfold enterAll
    split
    · next t h => rw [h] at look; exact look ▸ List.prefix_rfl
    · next t h =>
      rw [h] at look
      have step := look ▸ sink_prefix_enter host t e
      split
      · next w u k => rw [k] at step; exact step.trans (ih u (some w))
      · next o u k => rw [k] at step; exact step

/-- After a submission the session has the diagnostics that it had before and those of the
submission. -/
theorem sink_submit (host : Option Host) (s : Session) (text : List Char) (openEnded : Bool) :
    (s.submit host text openEnded).2.sink =
      s.sink ++ (s.submit host text openEnded).1.diagnostics := by
  have conclude (t : Session) (source : List Char) (o : Outcome) (h : s.sink <+: t.sink) :
      (t.conclude s.sink.length source o).2.sink =
        s.sink ++ (t.conclude s.sink.length source o).1.diagnostics := by
    obtain ⟨added, h⟩ := h
    simp [Session.conclude, ← h]
  unfold submit
  dsimp only
  split
  · simp [resetInput]
  · exact conclude _ _ _ List.prefix_rfl
  · exact conclude _ _ _ List.prefix_rfl
  · exact conclude _ _ _ List.prefix_rfl
  · next nodes _ =>
    have h := sink_prefix_enterAll host (nodes.map (Entry.of (s.pending ++ text))) s.resetInput none
    split
    · next k => rw [k] at h; exact conclude _ _ _ h
    · next k => rw [k] at h; exact conclude _ _ _ h

end Session

end Sigil
