import Sigil.Proofs.Evaluation.Contract
import Sigil.Proofs.Session.Kept
import Sigil.Proofs.Typing.Events

/-!
# Names that a session knows

Whatever has a value in the root frame has a binding in the root scope, after
any requests, however they ended (`known_serveAll`). So no name that has a value
there is ever reported to mean nothing.

What running an entry can define in the root frame is what the entry itself
defines there (`Contract.rooted`): everything else runs in frames of its own. An
entry runs only after the checker has gone through it from end to end, and has
defined all of that.
-/

namespace Sigil

/-! ## Evaluation -/

namespace Eval

/-- There is a root frame, and it has only names that `D` holds of. -/
def Rooted (D : String → Prop) (w : World) : Prop :=
  rootFrame < w.store.frames.size ∧ ∀ name, (w.store.slotIn? rootFrame name).isSome → D name

/-- Nodes that define only names that `D` holds of may be evaluated in the root frame. -/
def Contract.rooted (D : String → Prop) : Contract where
  holds := Rooted D
  carries _ := True
  admits n f := f = rootFrame → ∀ name, .defines name ∈ ScopeEvent.atRoot [] n.events → D name
  fresh f := f ≠ rootFrame
  blames _ := True
  ends _ := Rooted D

theorem Rooted.define {D : String → Prop} {w : World} (hw : Rooted D w) {f : FrameId}
    {name : String} {slot : Slot} (h : f = rootFrame → D name) :
    Rooted D { w with store := w.store.define f name slot } := by
  refine ⟨by simpa using hw.1, fun other ho => ?_⟩
  rw [Store.slotIn?_define] at ho
  split_ifs at ho with e
  · exact e.2.1 ▸ h e.1
  · exact hw.2 other ho

theorem Contract.stable_rooted (host : Option Host) (D : String → Prop) :
    (Contract.rooted D).Stable host where
  direct hn hm root name he := hn root name (Node.atRoot_direct hm he)
  enclosed _ fresh _ root := absurd root fresh
  body _ fresh root := absurd root fresh
  datum _ := trivial
  found _ _ := trivial
  closure _ _ := trivial
  pushed outer hw := by
    refine ⟨⟨?_, fun name hn => hw.2 name ?_⟩, Nat.ne_of_gt hw.1⟩
    · rw [Store.size_push]
      exact Nat.lt_succ_of_lt hw.1
    · rwa [Store.slotIn?_push] at hn
  counted hw := hw
  bound _ hw fresh _ := hw.define fun root => absurd root fresh
  defined hw hn hname _ := hw.define fun root => hn root _ (Node.atRoot_definedName? hname)
  assigned := by
    intro w v f name hw _
    rcases Store.assign_cases w.store f name v with ⟨-, e⟩ | ⟨g, slot, -, hs, e⟩
    · rw [e]
      exact hw
    · rw [e]
      refine hw.define ?_
      rintro rfl
      exact hw.2 name (by rw [hs]; rfl)
  answered _ _ hw _ := hw
  refused _ _ _ _ hw _ _ := hw
  blamesNone := trivial
  blamesNode _ := trivial
  fails _ hw _ := hw
  returns hw _ := hw
  caught hw := ⟨hw, trivial⟩
  tooDeep hw := hw

end Eval

/-! ## Sessions -/

namespace Session

open Eval

/-- Only the root scope is open, and it has a binding for every name of the root frame. -/
def Known (w : World) (scopes : Scopes) : Prop :=
  scopes.inner = [] ∧ Rooted (fun name => (scopes.rootBinding? name).isSome) w

theorem known_initial : Known World.initial Scopes.empty :=
  ⟨rfl, Nat.zero_lt_one, fun _ h => nomatch h⟩

theorem known_enter (host : Option Host) (s : Session) (e : Entry) (h : Known s.world s.scopes) :
    Known (s.enter host e).2.world (s.enter host e).2.scopes := by
  obtain ⟨⟨t, runs, scopes⟩, -, ends⟩ := check_runs e.node s.scopes h.1
  have before : Rooted (fun name => (t.rootBinding? name).isSome) s.world :=
    ⟨h.2.1, fun name hn => runs.rootBinding? (h.2.2 name hn)⟩
  unfold enter
  dsimp only
  rw [scopes]
  cases hc : (check e.node s.scopes e.node.blankNotes).outcome with
  | error f => exact ⟨rfl, before⟩
  | ok ty =>
    refine ⟨rfl, ?_⟩
    rw [hc] at ends
    have within : s.scopes.Within [] := by
      rw [Scopes.Within, h.1]
      exact .nil
    have ran := (Contract.stable_rooted host _).run_evaluate Eval.maxDepth (n := e.node)
      (f := rootFrame) (fun _ name he => runs.defines within (ends ▸ he)) before
    dsimp only
    rcases hr : (Eval.evaluate host Eval.maxDepth e.node rootFrame).run s.world with ⟨x | v, w⟩
    · rw [hr] at ran
      exact ran
    · rw [hr] at ran
      exact ran.1

theorem keeps_known (host : Option Host) : Keeps host Known where
  interrupt _ _ _ h := h
  enter := known_enter host

/-- After any requests, and any entries of the submission that is going on: a name that has a value
in the root frame has a binding in the root scope, and no tree that is checked then gets a report
that the name means nothing. -/
theorem known_serveAll (host : Option Host) (rs : List Request) (es : List Entry) (name : String) :
    let s := ((initial.serveAll host rs).enterAll host none es).2
    (s.world.store.slotIn? rootFrame name).isSome →
      (s.scopes.rootBinding? name).isSome ∧
        ∀ n span, (Finding.unbound name).diagnostic span ∉
          (check n s.scopes n.blankNotes).diagnostics := by
  intro s there
  have known : Known s.world s.scopes :=
    (keeps_known host).enterAll es none ((keeps_known host).serveAll rs known_initial)
  have bound : (s.scopes.rootBinding? name).isSome := known.2.2 name there
  refine ⟨bound, fun n span reported => ?_⟩
  obtain ⟨-, unbound, -⟩ := check_runs n s.scopes known.1
  rw [unbound name span reported] at bound
  cases bound

/-- A name that is defined before a failure in the same submission. -/
theorem known_serveAll_sample :
    let rs := [Request.submit "let $x = 1; fn f() \x7b let $y = 2 \x7d; 1 / 0".toList false]
    let s := ((initial.serveAll none rs).enterAll none none []).2
    (s.world.store.slotIn? rootFrame "x").isSome ∧ (s.scopes.rootBinding? "x").isSome ∧
      ∀ n span, (Finding.unbound "x").diagnostic span ∉
        (check n s.scopes n.blankNotes).diagnostics := by
  intro rs s
  have there : (s.world.store.slotIn? rootFrame "x").isSome := by decide +kernel
  exact ⟨there, known_serveAll none rs [] "x" there⟩

end Session

end Sigil
