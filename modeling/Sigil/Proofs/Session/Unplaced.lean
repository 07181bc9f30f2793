import Sigil.Proofs.Evaluation.Relabelled
import Sigil.Proofs.Typing.Relabelled
import Sigil.Session

/-!
# Sessions without spans

A session and all that comes of it, with the spans left out. Checking and
running go along with that: what a session without spans makes of entries
without spans is what the session makes of the entries, without spans
(`Session.enterAll_unplaced`). So two sessions that are the same but for spans
stay so when they run entries that are the same but for spans.
-/

namespace Sigil

/-- An entry without spans. -/
def Entry.unplaced (e : Entry) : Entry :=
  ⟨e.source, e.node.relabel .unplaced⟩

/-- A failure without the span that it is about; those of reading are about a place. -/
def Failure.unplaced : Failure → Failure
  | .lex e => .lex e
  | .parse e => .parse e
  | .misplacedReturn _ => .misplacedReturn none
  | .runtime e => .runtime ⟨e.fault, none⟩

/-- A way out of a submission, without spans. -/
def Escape.unplaced : Escape → Escape
  | .exhausted => .exhausted
  | .retyped kind _ type => .retyped kind none type
  | .returned v => .returned (v.relabel .unplaced)

/-- An outcome without spans. -/
def Outcome.unplaced : Outcome → Outcome
  | .done value display => .done (value.map (·.relabel .unplaced)) display
  | .incomplete => .incomplete
  | .interrupted => .interrupted
  | .failed f => .failed f.unplaced
  | .escaped e => .escaped e.unplaced

namespace Session

/-- A session without spans in it. -/
def unplaced (s : Session) : Session where
  world := s.world.relabel .unplaced
  scopes := s.scopes.relabel .unplaced
  sink := s.sink.map (·.relabel .unplaced)
  history := s.history.map (·.unplaced)
  pending := s.pending

theorem look_unplaced (s : Session) : s.unplaced.look = (s.look.1, s.look.2.unplaced) := by
  have same : s.unplaced.world.interrupt = s.world.interrupt := rfl
  unfold look
  rw [same]
  rcases s.world.interrupt with _ | _ | k <;> rfl

theorem outcomeOfFault_unplaced (f : BindFault) :
    outcomeOfFault (f.relabel .unplaced) = (outcomeOfFault f).unplaced := by
  cases f with
  | returnOutside span => cases span <;> rfl
  | alreadyTyped kind span type => cases span <;> rfl

theorem outcomeOfExit_unplaced (n : Node) (x : Exit) :
    outcomeOfExit (n.relabel .unplaced) (x.relabel .unplaced) = (outcomeOfExit n x).unplaced := by
  have none (span : Option Span) : Relabel.unplaced.span span = none := by cases span <;> rfl
  cases x with
  | error e => simp only [Exit.relabel, outcomeOfExit, Outcome.unplaced, Failure.unplaced, none]
  | returned v => rfl
  | tooDeep =>
    simp only [Exit.relabel, outcomeOfExit, Outcome.unplaced, Failure.unplaced,
      Node.span_relabel, none]

/-- A result of running, and the session after it, without spans. -/
def endUnplaced {α : Type} (g : α → α) (r : Except Outcome α × Session) :
    Except Outcome α × Session :=
  ((r.1.map g).mapError (·.unplaced), r.2.unplaced)

theorem enter_unplaced (host : Option Host) (s : Session) (e : Entry) :
    s.unplaced.enter host e.unplaced = endUnplaced (·.relabel .unplaced) (s.enter host e) := by
  have checked : check e.unplaced.node s.unplaced.scopes e.unplaced.node.blankNotes =
      (check e.node s.scopes e.node.blankNotes).relabel .unplaced := by
    rw [Entry.unplaced, Node.blankNotes_relabel]
    exact check_relabel rfl e.node s.scopes e.node.blankNotes
  have ran := Eval.evaluate_relabel (r := .unplaced) rfl host Eval.maxDepth e.node rootFrame s.world
  unfold enter
  dsimp only
  rw [checked]
  rcases check e.node s.scopes e.node.blankNotes with ⟨f | t, diagnostics, notes, scopes⟩
  · dsimp only [Checked.relabel, Except.mapError]
    rw [outcomeOfFault_unplaced]
    simp only [endUnplaced, unplaced, List.map_append, List.map_cons, List.map_nil]
    rfl
  · dsimp only [Checked.relabel, Except.mapError, unplaced, Entry.unplaced]
    rw [ran]
    rcases (Eval.evaluate host Eval.maxDepth e.node rootFrame).run s.world with ⟨x | v, w⟩
    · dsimp only [Except.map, Except.mapError, endUnplaced]
      rw [outcomeOfExit_unplaced]
      simp only [unplaced, List.map_append, List.map_cons, List.map_nil]
      rfl
    · simp only [endUnplaced, unplaced, List.map_append, List.map_cons, List.map_nil]
      rfl

/-- Running entries goes along with leaving out spans. -/
theorem enterAll_unplaced (host : Option Host) (es : List Entry) (s : Session) (v : Option Value) :
    s.unplaced.enterAll host (v.map (·.relabel .unplaced)) (es.map (·.unplaced)) =
      endUnplaced (Option.map (·.relabel .unplaced)) (s.enterAll host v es) := by
  induction es generalizing s v with
  | nil => rfl
  | cons e es ih =>
    rw [List.map_cons, enterAll, enterAll, look_unplaced]
    rcases s.look with ⟨_ | _, t⟩
    · dsimp only
      rw [enter_unplaced]
      rcases t.enter host e with ⟨o | w, u⟩
      · rfl
      · exact ih u (some w)
    · rfl

end Session

end Sigil
