import Sigil.Proofs.Session.Batch
import Sigil.Proofs.Session.Moments

/-!
# What a session keeps

A submission runs the entries of its text, if the text can be read
(`submit_of_entries`), and else does nothing to the world and the names that are
known (`submit_of_error`). So what every entry keeps is kept by all requests
(`Keeps.serveAll`), whatever becomes of the submissions.
-/

namespace Sigil.Session

variable {host : Option Host} {s : Session} {text : List Char} {openEnded : Bool}

/-! ## Submissions -/

/-- How a submission ends whose text cannot be read. -/
def outcomeOfStop : Stop → Outcome
  | .needsMore _ => .incomplete
  | .lex e => .failed (.lex e)
  | .parse e => .failed (.parse e)
  | .exhausted => .escaped .exhausted

/-- Submitting a text that can be read is running its entries. -/
theorem submit_of_entries (host : Option Host) {ns : List Node}
    (h : parseEntries (s.pending ++ text) openEnded = .ok ns) :
    s.submit host text openEnded =
      let r := s.resetInput.enterAll host none (ns.map (Entry.of (s.pending ++ text)))
      r.2.conclude s.sink.length (s.pending ++ text) (outcomeOf r.1) := by
  unfold submit
  dsimp only
  rw [h]
  dsimp only
  rcases s.resetInput.enterAll host none (ns.map (Entry.of (s.pending ++ text)))
    with ⟨o | v, t⟩ <;> rfl

/-- A text that cannot be read leaves everything as it was but the diagnostics and what waits for
its rest. -/
theorem submit_of_error (host : Option Host) {stop : Stop}
    (h : parseEntries (s.pending ++ text) openEnded = .error stop) :
    let r := s.submit host text openEnded
    r.1.outcome = outcomeOfStop stop ∧ r.2.world = s.world ∧ r.2.scopes = s.scopes ∧
      r.2.history = s.history := by
  unfold submit
  dsimp only
  rw [h]
  cases stop <;> exact ⟨rfl, rfl, rfl, rfl⟩

/-- What was read, whatever came of it. -/
theorem source_submit (host : Option Host) (s : Session) (text : List Char) (openEnded : Bool) :
    (s.submit host text openEnded).1.source = s.pending ++ text := by
  cases h : parseEntries (s.pending ++ text) openEnded with
  | ok ns => rw [submit_of_entries host h]; rfl
  | error stop =>
    unfold submit
    dsimp only
    rw [h]
    cases stop <;> rfl

/-! ## Requests -/

/-- What is known of the world and the names of a session, whatever the entries that run. -/
structure Keeps (host : Option Host) (P : World → Scopes → Prop) : Prop where
  interrupt (w : World) (scopes : Scopes) (looks : Option Nat) :
    P w scopes → P { w with interrupt := looks } scopes
  enter (s : Session) (e : Entry) :
    P s.world s.scopes → P (s.enter host e).2.world (s.enter host e).2.scopes

namespace Keeps

variable {P : World → Scopes → Prop} (K : Keeps host P)
include K

theorem look (h : P s.world s.scopes) : P s.look.2.world s.look.2.scopes := by
  unfold Session.look
  split
  · exact h
  · exact h
  · exact K.interrupt _ _ _ h

theorem enterAll (es : List Entry) (v : Option Value) (h : P s.world s.scopes) :
    P (s.enterAll host v es).2.world (s.enterAll host v es).2.scopes := by
  induction es generalizing s v with
  | nil => exact h
  | cons e es ih =>
    have looked := K.look h
    unfold Session.enterAll
    split
    · next t k => rw [k] at looked; exact looked
    · next t k =>
      rw [k] at looked
      have entered := K.enter t e looked
      split
      · next k => rw [k] at entered; exact ih _ entered
      · next k => rw [k] at entered; exact entered

theorem submit (text : List Char) (openEnded : Bool) (h : P s.world s.scopes) :
    P (s.submit host text openEnded).2.world (s.submit host text openEnded).2.scopes := by
  cases read : parseEntries (s.pending ++ text) openEnded with
  | error stop =>
    obtain ⟨-, world, scopes, -⟩ := submit_of_error host read
    rw [world, scopes]
    exact h
  | ok ns =>
    rw [submit_of_entries host read]
    exact K.enterAll (s := s.resetInput) _ none h

/-- What every entry keeps holds after any requests. -/
theorem serveAll (rs : List Request) (h : P s.world s.scopes) :
    P (s.serveAll host rs).world (s.serveAll host rs).scopes := by
  induction rs generalizing s with
  | nil => exact h
  | cons r rs ih =>
    refine ih (s := s.serve host r) ?_
    cases r with
    | submit text openEnded => exact K.submit text openEnded h
    | resetInput => exact h
    | schedule looks => exact K.interrupt _ _ looks h

end Keeps

end Sigil.Session
