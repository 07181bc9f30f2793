import Sigil.Proofs.Evaluation.Contract
import Sigil.Proofs.Session.Kept

/-!
# Failing commands

A command that fails stops everything (`submit_failStop`): the call of the host
is the last one of the submission, the entry that made it is the last one that
is checked, run and remembered, and the submission ends with the failure of the
command. So all calls of a submission that is well succeeded.

Evaluation knows of the calls made so far that they all succeeded
(`Eval.Contract.succeeding`); an answer that is no success makes an error, and
nothing between the command and the end of the entry takes an error for
anything else.
-/

namespace Sigil

/-! ## Answers -/

/-- The command ran and ended with the status that means success. -/
def Reply.Succeeds (r : Reply) : Prop :=
  ∃ output, r.outcome = .exited 0 output

theorem Reply.fault?_eq_none {r : Reply} {call : Call} :
    r.fault? call = none ↔ r.Succeeds := by
  obtain ⟨outcome, interrupts⟩ := r
  cases outcome with
  | failed reason => simp [fault?, Succeeds]
  | exited status output =>
    by_cases notFound : status = commandNotFound
    · simp [fault?, Succeeds, notFound, commandNotFound]
    · by_cases zero : status = 0 <;> simp [fault?, Succeeds, notFound, zero]
      decide

/-- An answer that is no success is a failure of the command. -/
theorem Reply.kind_fault? {r : Reply} {call : Call} {fault : RuntimeFault}
    (h : r.fault? call = some fault) : fault.kind = .commandFailure := by
  unfold fault? at h
  split at h
  · cases h
    rfl
  · split at h
    · cases h
      rfl
    · split at h
      · cases h
        rfl
      · cases h

namespace Host

variable (h : Host)

/-- All of some calls succeed that are made after others. -/
def Succeeds (before : List Call) : List Call → Prop
  | [] => True
  | call :: calls => (h.reply before call).Succeeds ∧ Succeeds (before ++ [call]) calls

variable {h} {before made calls : List Call} {call : Call}

theorem succeeds_append :
    h.Succeeds before (made ++ calls) ↔
      h.Succeeds before made ∧ h.Succeeds (before ++ made) calls := by
  induction made generalizing before with
  | nil => simp [Succeeds]
  | cons call made ih => simp [Succeeds, ih, and_assoc]

/-- One more call is made. -/
theorem succeeds_snoc :
    h.Succeeds before (made ++ [call]) ↔
      h.Succeeds before made ∧ (h.reply (before ++ made) call).Succeeds := by
  simp [succeeds_append, Succeeds]

/-- All of some calls succeed but the last, which makes the fault. -/
def Stops (h : Host) (before made : List Call) (fault : RuntimeFault) : Prop :=
  ∃ calls call, made = calls ++ [call] ∧ h.Succeeds before calls ∧
    (h.reply (before ++ calls) call).fault? call = some fault

/-- Calls that all succeeded do not matter to what comes after them. -/
theorem Stops.after {fault : RuntimeFault} (hm : h.Succeeds before made)
    (hc : h.Stops (before ++ made) calls fault) : h.Stops before (made ++ calls) fault := by
  obtain ⟨calls, call, rfl, succeeds, failed⟩ := hc
  refine ⟨made ++ calls, call, by rw [List.append_assoc], succeeds_append.mpr ⟨hm, succeeds⟩, ?_⟩
  rw [← List.append_assoc]
  exact failed

/-- A call that fails is the last one. -/
theorem Stops.last {fault : RuntimeFault} (hm : h.Stops before made fault) {first after : List Call}
    (e : made = first ++ call :: after) (failed : ¬ (h.reply (before ++ first) call).Succeeds) :
    after = [] := by
  obtain ⟨calls, last, rfl, succeeds, -⟩ := hm
  rcases List.eq_nil_or_concat after with rfl | ⟨after, c, rfl⟩
  · rfl
  · -- the call would be among those that succeed
    rw [List.concat_eq_append, ← List.cons_append, ← List.append_assoc] at e
    obtain ⟨rfl, -⟩ := List.append_inj' e rfl
    exact absurd (succeeds_append.mp succeeds).2.1 failed

end Host

/-! ## Evaluation -/

namespace Eval

/-- After the calls that were made before, all calls succeeded so far. -/
def Succeeded (h : Host) (before : List Call) (w : World) : Prop :=
  ∃ made, w.calls = before ++ made ∧ h.Succeeds before made

/-- After the calls that were made before, the last call made the fault. -/
def Stopped (h : Host) (before : List Call) (fault : RuntimeFault) (w : World) : Prop :=
  ∃ made, w.calls = before ++ made ∧ h.Stops before made fault

theorem Succeeded.trans {h : Host} {before : List Call} {v w : World} (hv : Succeeded h before v)
    (hw : Succeeded h v.calls w) : Succeeded h before w := by
  obtain ⟨made, ev, succeeds⟩ := hv
  obtain ⟨more, ew, later⟩ := hw
  rw [ev] at ew later
  exact ⟨made ++ more, by rw [ew, List.append_assoc], Host.succeeds_append.mpr ⟨succeeds, later⟩⟩

/-- All calls succeed, or the last one made the error that evaluation ends with. -/
def Contract.succeeding (h : Host) (before : List Call) : Contract where
  holds := Succeeded h before
  carries _ := True
  admits _ _ := True
  fresh _ := True
  blames _ := True
  ends
    | .error e, w => Succeeded h before w ∨ Stopped h before e.fault w
    | _, w => Succeeded h before w

theorem Contract.stable_succeeding (h : Host) (before : List Call) :
    (Contract.succeeding h before).Stable (some h) where
  direct _ _ := trivial
  enclosed _ _ _ := trivial
  body _ _ := trivial
  datum _ := trivial
  found _ _ := trivial
  closure _ _ := trivial
  pushed _ hw := ⟨hw, trivial⟩
  counted hw := hw
  bound _ hw _ _ := hw
  defined hw _ _ _ := hw
  assigned _ _ hw _ := hw
  answered := by
    rintro w _ call ⟨⟩ ⟨made, calls, succeeds⟩ answer
    refine ⟨made ++ [call], by rw [World.asked, calls, List.append_assoc], ?_⟩
    rw [calls] at answer
    exact Host.succeeds_snoc.mpr ⟨succeeds, Reply.fault?_eq_none.mp answer⟩
  refused := by
    rintro w _ call fault span ⟨⟩ ⟨made, calls, succeeds⟩ answer -
    refine .inr ⟨made ++ [call], by rw [World.asked, calls, List.append_assoc], ?_⟩
    rw [calls] at answer
    exact ⟨made, call, rfl, succeeds, answer⟩
  blamesNone := trivial
  blamesNode _ := trivial
  fails _ hw _ := .inl hw
  returns hw _ := hw
  caught hw := ⟨hw, trivial⟩
  tooDeep hw := hw

end Eval

/-! ## Sessions -/

namespace Session

open Eval

variable {h : Host} {s : Session}

theorem succeeded_self (h : Host) (w : World) : Succeeded h w.calls w :=
  ⟨[], (List.append_nil _).symm, trivial⟩

/-- An entry makes only calls that succeed, or it ends with the fault that the last one makes. -/
theorem enter_failStop (h : Host) (s : Session) (e : Entry) :
    let r := s.enter (some h) e
    Succeeded h s.world.calls r.2.world ∨
      ∃ x, r.1 = .error (.failed (.runtime x)) ∧ Stopped h s.world.calls x.fault r.2.world := by
  unfold enter
  dsimp only
  split
  · exact .inl (succeeded_self h s.world)
  · have ends := (Contract.stable_succeeding h s.world.calls).run_evaluate Eval.maxDepth
      (n := e.node) (f := rootFrame) trivial (succeeded_self h s.world)
    rcases run : (Eval.evaluate (some h) Eval.maxDepth e.node rootFrame).run s.world with ⟨x | v, w⟩
    · rw [run] at ends
      cases x with
      | error x =>
        refine ends.imp id fun stopped => ⟨x, rfl, stopped⟩
      | returned v => exact .inl ends
      | tooDeep => exact .inl ends
    · rw [run] at ends
      exact .inl ends.1

theorem calls_look (s : Session) : s.look.2.world.calls = s.world.calls := by
  unfold look
  split <;> rfl

theorem history_look (s : Session) : s.look.2.history = s.history := by
  unfold look
  split <;> rfl

theorem history_enter (host : Option Host) (s : Session) (e : Entry) :
    (s.enter host e).2.history = s.history ++ [e] := by
  unfold enter
  dsimp only
  split <;> rfl

/-- Entries that all end with a value are remembered. -/
theorem history_enterAll {host : Option Host} {es : List Entry} {v u : Option Value} {t : Session}
    (ran : s.enterAll host v es = (.ok u, t)) : t.history = s.history ++ es := by
  induction es generalizing s v with
  | nil =>
    cases ran
    exact (List.append_nil _).symm
  | cons e es ih =>
    have looked := history_look s
    rw [enterAll] at ran
    split at ran
    · cases ran
    · next t' k =>
      rw [k] at looked
      have entered := history_enter host t' e
      split at ran
      · next k =>
        rw [k] at entered
        rw [ih ran, entered, looked, List.append_assoc]
        rfl
      · cases ran

/-- An entry that ends with a value, and then the others. -/
theorem enterAll_cons_ok {host : Option Host} {t u : Session} {e : Entry} {w : Value}
    (looked : s.look = (false, t)) (entered : t.enter host e = (.ok w, u)) (v : Option Value)
    (es : List Entry) : s.enterAll host v (e :: es) = u.enterAll host (some w) es := by
  rw [enterAll, looked]
  dsimp only
  rw [entered]

/-- An entry that does not end with a value is the last one. -/
theorem enterAll_cons_error {host : Option Host} {t u : Session} {e : Entry} {o : Outcome}
    (looked : s.look = (false, t)) (entered : t.enter host e = (.error o, u)) (v : Option Value)
    (es : List Entry) : s.enterAll host v (e :: es) = (.error o, u) := by
  rw [enterAll, looked]
  dsimp only
  rw [entered]

/-- The entries stopped at `entry`, which was the last to be checked and run: they end as they would
without those after it. -/
structure StopsAt (host : Option Host) (s : Session) (v : Option Value) (es done : List Entry)
    (entry : Entry) (left : List Entry) : Prop where
  entries : es = done ++ entry :: left
  started : ∃ u, (s.enterAll host v done).1 = .ok u
  ended : s.enterAll host v es = s.enterAll host v (done ++ [entry])

/-- Entries make only calls that succeed, or they stop at an entry that makes a call that does not,
and with the fault that this call makes. -/
theorem enterAll_failStop (h : Host) (es : List Entry) (s : Session) (v : Option Value) :
    let r := s.enterAll (some h) v es
    Succeeded h s.world.calls r.2.world ∨
      ∃ x done entry left, r.1 = .error (.failed (.runtime x)) ∧
        StopsAt (some h) s v es done entry left ∧
        Succeeded h s.world.calls (s.enterAll (some h) v done).2.world ∧
        Stopped h (s.enterAll (some h) v done).2.world.calls x.fault r.2.world := by
  induction es generalizing s v with
  | nil => exact .inl (succeeded_self h s.world)
  | cons e es ih =>
    have calls := calls_look s
    rcases looked : s.look with ⟨_ | _, t⟩
    case true =>
      rw [looked] at calls
      rw [enterAll, looked]
      exact .inl (calls ▸ succeeded_self h t.world)
    case false =>
      rw [looked] at calls
      have first := enter_failStop h t e
      rcases entered : t.enter (some h) e with ⟨o | w, u⟩
      · rw [enterAll_cons_error looked entered]
        rw [entered, calls] at first
        refine first.imp_right ?_
        rintro ⟨x, ended, stopped⟩
        obtain rfl := Except.error.inj ended
        refine ⟨x, [], e, es, rfl, ⟨rfl, ⟨v, rfl⟩, ?_⟩, succeeded_self h s.world, stopped⟩
        rw [List.nil_append, enterAll_cons_error looked entered,
          enterAll_cons_error looked entered]
      · rw [enterAll_cons_ok looked entered]
        rw [entered, calls] at first
        have first : Succeeded h s.world.calls u.world := first.resolve_right <| by
          rintro ⟨_, failed, -⟩
          cases failed
        refine (ih u (some w)).imp first.trans ?_
        rintro ⟨x, done, entry, left, ended, at_, earlier, stopped⟩
        have goes := enterAll_cons_ok looked entered v
        refine ⟨x, e :: done, entry, left, ended, ⟨by rw [at_.entries]; rfl, ?_, ?_⟩, ?_, ?_⟩
        · rw [goes]
          exact at_.started
        · rw [List.cons_append, goes, goes]
          exact at_.ended
        · rw [goes]
          exact first.trans earlier
        · rw [goes]
          exact stopped

/-- The entry that entries stopped at was remembered as the last. -/
theorem StopsAt.history {host : Option Host} {v : Option Value} {es done left : List Entry}
    {entry : Entry} {x : RuntimeError} (at_ : StopsAt host s v es done entry left)
    (ended : (s.enterAll host v es).1 = .error (.failed (.runtime x))) :
    (s.enterAll host v es).2.history = s.history ++ done ++ [entry] := by
  obtain ⟨u, started⟩ := at_.started
  rw [at_.ended, enterAll_append] at ended ⊢
  rcases ran : s.enterAll host v done with ⟨o | w, t⟩
  · rw [ran] at started
    cases started
  · rw [ran] at ended
    dsimp only at ended ⊢
    rw [← history_enterAll ran]
    have kept := history_look t
    rcases looked : t.look with ⟨_ | _, t'⟩
    · rw [looked] at kept
      have entered := history_enter host t' entry
      rcases last : t'.enter host entry with ⟨o | a, t''⟩
      · rw [enterAll_cons_error looked last, ← kept, ← entered, last]
      · rw [enterAll_cons_ok looked last] at ended
        cases ended
    · rw [enterAll, looked] at ended
      cases ended

/-- A submission in which a call of the host did not succeed, which comes after the calls `before`
of the submission, and before the calls `after`. -/
structure CutShort (h : Host) (s : Session) (text : List Char) (openEnded : Bool)
    (before after : List Call) : Prop where
  last : after = []
  failure : ∃ x, (s.submit (some h) text openEnded).1.outcome = .failed (.runtime x) ∧
    x.fault.kind = .commandFailure
  /-- An entry of the text made the call. It is the last one that was checked, run and remembered:
  the submission ends as it would if no entry came after it. -/
  entry : ∃ ns done entry left, parseEntries (s.pending ++ text) openEnded = .ok ns ∧
    ns.map (Entry.of (s.pending ++ text)) = done ++ entry :: left ∧
    (s.resetInput.enterAll (some h) none done).2.world.calls <+: s.world.calls ++ before ∧
    (s.submit (some h) text openEnded).2.history = s.history ++ done ++ [entry] ∧
    let r := s.resetInput.enterAll (some h) none (done ++ [entry])
    s.submit (some h) text openEnded =
      r.2.conclude s.sink.length (s.pending ++ text) (outcomeOf r.1)

/-- A call that does not succeed cuts a submission short. -/
theorem submit_cutShort (h : Host) (s : Session) (text : List Char) (openEnded : Bool) :
    ∃ made, (s.submit (some h) text openEnded).2.world.calls = s.world.calls ++ made ∧
      ∀ before call after, made = before ++ call :: after →
        ¬ (h.reply (s.world.calls ++ before) call).Succeeds →
        CutShort h s text openEnded before after := by
  cases read : parseEntries (s.pending ++ text) openEnded with
  | error stop =>
    have unread := submit_of_error (some h) read
    exact ⟨[], by rw [unread.2.1, List.append_nil], fun _ _ _ e => by simp at e⟩
  | ok ns =>
    have ran := submit_of_entries (some h) read
    rcases enterAll_failStop h (ns.map (Entry.of (s.pending ++ text))) s.resetInput none with
      ⟨made, calls, succeeds⟩ | ⟨x, done, entry, left, ended, at_, ⟨made, calls, succeeds⟩,
        ⟨more, total, stops⟩⟩
    · refine ⟨made, by rw [ran]; exact calls, ?_⟩
      rintro before call after rfl failed
      exact absurd (Host.succeeds_append.mp succeeds).2.1 failed
    · rw [calls] at total stops
      refine ⟨made ++ more, by rw [ran, ← List.append_assoc]; exact total, ?_⟩
      intro before call after e failed
      have whole := stops.after succeeds
      have last := whole.last e failed
      obtain ⟨earlier, call', rfl, -, fault⟩ := stops
      refine ⟨last, ⟨x, ?_, Reply.kind_fault? fault⟩, ns, done, entry, left, read, at_.entries, ?_,
        ?_, ?_⟩
      · rw [ran]
        exact congrArg outcomeOf ended
      · -- the call that failed is the last one, and not among those made by the entries before
        rw [last, ← List.append_assoc] at e
        obtain ⟨rfl, -⟩ := List.append_inj' e rfl
        rw [calls, ← List.append_assoc]
        exact List.prefix_append _ _
      · rw [ran]
        exact at_.history ended
      · rw [ran, at_.ended]

/-- If a call of the host that a submission makes does not succeed, it is the last one, the
submission fails with it, and no later entry is begun. A submission that is well made only calls
that succeeded. -/
theorem submit_failStop (h : Host) (s : Session) (text : List Char) (openEnded : Bool) :
    let r := s.submit (some h) text openEnded
    ∃ made, r.2.world.calls = s.world.calls ++ made ∧
      ∀ before call after, made = before ++ call :: after →
        (¬ (h.reply (s.world.calls ++ before) call).Succeeds →
          CutShort h s text openEnded before after) ∧
        (r.1.status = "ok" → (h.reply (s.world.calls ++ before) call).Succeeds) := by
  obtain ⟨made, calls, stop⟩ := submit_cutShort h s text openEnded
  refine ⟨made, calls, fun before call after e => ⟨stop before call after e, fun ok => ?_⟩⟩
  by_contra failed
  obtain ⟨x, outcome, -⟩ := (stop before call after e failed).failure
  obtain ⟨v, shown, well⟩ := Submission.outcome_of_ok ok
  cases outcome.symm.trans well

end Session

end Sigil
