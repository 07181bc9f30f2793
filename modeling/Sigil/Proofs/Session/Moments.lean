import Sigil.Proofs.Evaluation.Kept
import Sigil.Session

/-!
# Runs of a session

What can be asked of a session (`Session.Request`), the session after a list
of requests, and the worlds that it passes through on the way, those in the
midst of an evaluation included (`Session.moments`). What evaluation keeps
holds at all of them (`Session.moments_kept`).
-/

namespace Sigil.Session

/-- A request to a session. -/
inductive Request where
  | submit (text : List Char) (openEnded : Bool)
  | resetInput
  | schedule (looks : Option Nat)

section

variable (host : Option Host)

/-- The session after a request. -/
def serve (s : Session) : Request → Session
  | .submit text openEnded => (s.submit host text openEnded).2
  | .resetInput => s.resetInput
  | .schedule looks => s.schedule looks

/-- The session after requests, one after the other. -/
def serveAll (s : Session) (rs : List Request) : Session :=
  rs.foldl (serve host) s

/-- The worlds that a session passes through while it checks an entry and runs it. -/
def momentsOfEntry (s : Session) (e : Entry) : List World :=
  match (check e.node s.scopes e.node.blankNotes).outcome with
  | .error _ => [s.world]
  | .ok _ => (Eval.evaluate host Eval.maxDepth e.node rootFrame).worlds s.world

/-- The worlds that a session passes through while it runs entries in order. -/
def momentsOfEntries (s : Session) : List Entry → List World
  | [] => [s.world]
  | e :: es =>
    match s.look with
    | (true, s) => [s.world]
    | (false, s) =>
      s.momentsOfEntry host e ++
        match s.enter host e with
        | (.ok _, s) => momentsOfEntries s es
        | (.error _, s) => [s.world]

/-- The worlds that a session passes through on a request. -/
def momentsOf (s : Session) : Request → List World
  | .submit text openEnded =>
    match parseEntries (s.pending ++ text) openEnded with
    | .error _ => [s.world]
    | .ok nodes => s.resetInput.momentsOfEntries host (nodes.map (Entry.of (s.pending ++ text)))
  | r => [(s.serve host r).world]

/-- The worlds that a session passes through on requests, from the one that it has. -/
def moments (s : Session) : List Request → List World
  | [] => [s.world]
  | r :: rs => s.world :: s.momentsOf host r ++ (s.serve host r).moments rs

end

variable (host : Option Host) {I : World → Prop}

/-! ## The world after a request -/

theorem world_enter_mem (s : Session) (e : Entry) :
    (s.enter host e).2.world ∈ s.momentsOfEntry host e := by
  unfold momentsOfEntry enter
  dsimp only
  cases (check e.node s.scopes e.node.blankNotes).outcome with
  | error f => exact List.mem_singleton_self _
  | ok v => exact Eval.run_mem_worlds _ _

theorem world_enterAll_mem (s : Session) (v : Option Value) (es : List Entry) :
    (s.enterAll host v es).2.world ∈ s.momentsOfEntries host es := by
  induction es generalizing s v with
  | nil => exact List.mem_singleton_self _
  | cons e es ih =>
    unfold momentsOfEntries enterAll
    obtain ⟨interrupted, s⟩ := s.look
    cases interrupted with
    | true => exact List.mem_singleton_self _
    | false =>
      dsimp only
      obtain ⟨r, t⟩ := s.enter host e
      cases r with
      | ok v => exact List.mem_append_right _ (ih t (some v))
      | error o => exact List.mem_append_right _ (List.mem_singleton_self _)

@[simp] theorem world_conclude (s : Session) (before : Nat) (source : List Char) (o : Outcome) :
    (s.conclude before source o).2.world = s.world := rfl

theorem world_serve_mem (s : Session) (r : Request) :
    (s.serve host r).world ∈ s.momentsOf host r := by
  cases r with
  | resetInput => exact List.mem_singleton_self _
  | schedule looks => exact List.mem_singleton_self _
  | submit text openEnded =>
    unfold momentsOf serve submit
    dsimp only
    cases parseEntries (s.pending ++ text) openEnded with
    | error e => cases e <;> exact List.mem_singleton_self _
    | ok nodes =>
      have h := world_enterAll_mem host s.resetInput none
        (nodes.map (Entry.of (s.pending ++ text)))
      dsimp only
      split <;> rename_i k <;> rw [k] at h <;> exact h

/-! ## What holds at all moments -/

section

variable (hI : Eval.Kept I)
include hI

theorem kept_look {s : Session} (h : I s.world) : I s.look.2.world := by
  unfold look
  split
  · exact h
  · exact h
  · exact hI.call s.world s.world.calls _ h

theorem momentsOfEntry_kept {s : Session} (e : Entry) (h : I s.world) :
    ∀ w ∈ s.momentsOfEntry host e, I w := by
  unfold momentsOfEntry
  split
  · exact List.forall_mem_singleton.mpr h
  · exact (Eval.wp_iff.mp (Eval.evaluate_wp hI host Eval.maxDepth true e.node rootFrame s.world
      (fun _ => rfl) h)).1

theorem momentsOfEntries_kept {s : Session} (es : List Entry) (h : I s.world) :
    ∀ w ∈ s.momentsOfEntries host es, I w := by
  induction es generalizing s with
  | nil => exact List.forall_mem_singleton.mpr h
  | cons e es ih =>
    have look := kept_look hI h
    unfold momentsOfEntries
    split
    · next t k => rw [k] at look; exact List.forall_mem_singleton.mpr look
    · next t k =>
      rw [k] at look
      have entry := momentsOfEntry_kept host hI e look
      have after := entry _ (world_enter_mem host t e)
      refine fun w hw => (List.mem_append.mp hw).elim (entry w) fun hw => ?_
      split at hw
      · next u l => rw [l] at after; exact ih after w hw
      · next u l => rw [l] at after; exact List.mem_singleton.mp hw ▸ after

theorem momentsOf_kept {s : Session} (r : Request) (h : I s.world) :
    ∀ w ∈ s.momentsOf host r, I w := by
  cases r with
  | resetInput => exact List.forall_mem_singleton.mpr h
  | schedule looks => exact List.forall_mem_singleton.mpr (hI.call s.world s.world.calls looks h)
  | submit text openEnded =>
    unfold momentsOf
    dsimp only
    split
    · exact List.forall_mem_singleton.mpr h
    · exact momentsOfEntries_kept host hI _ h

/-- What evaluation keeps holds at all moments, if it holds at first. -/
theorem moments_kept {s : Session} (rs : List Request) (h : I s.world) :
    ∀ w ∈ s.moments host rs, I w := by
  induction rs generalizing s with
  | nil => exact List.forall_mem_singleton.mpr h
  | cons r rs ih =>
    have request := momentsOf_kept host hI r h
    refine fun w hw => (List.mem_cons.mp hw).elim (fun e => e ▸ h) fun hw => ?_
    rcases List.mem_append.mp hw with hw | hw
    · exact request w hw
    · exact ih (request _ (world_serve_mem host s r)) w hw

end

end Sigil.Session
