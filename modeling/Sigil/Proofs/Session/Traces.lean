import Sigil.Proofs.Session.Kept
import Sigil.Proofs.Typing.Events

/-!
# What an entry does to the names that a session knows

The checker goes through an entry before anything of it runs, and what it did to
the root scope stays, also when the entry then fails. So an entry that fails may
leave bindings of names that have got no value, and types of values that were
never assigned (`runScript_leavesTypes`).

But the checker touches only the names that the entry itself defines or assigns in
the root scope, up to a misplaced return. Any other name keeps its binding
(`enter_stays`).
-/

namespace Sigil

namespace Scopes

variable {base : Nat} {name : String} {free : Prop} {s t : Scopes}

/-- A name that stays is bound as before, with the same type declared, and with the same type if it
is not free or a type is declared. -/
theorem Stays.rootBinding? (h : Stays s.table.size name free s t) (hs : s.Proper) :
    (t.rootBinding? name).map (·.declared) = (s.rootBinding? name).map (·.declared) ∧
      ((free → ((s.rootBinding? name).bind (·.declared)).isSome) →
        (t.rootBinding? name).map (·.type) = (s.rootBinding? name).map (·.type)) := by
  unfold Scopes.rootBinding?
  rw [h.root]
  cases hr : s.root.get? name with
  | none => exact ⟨rfl, fun _ => rfl⟩
  | some i =>
    have there : i < s.table.size := hs.valid name i hr
    refine ⟨h.declared i there hr, fun declared => h.type i there hr ?_⟩
    rintro ⟨hf, undeclared⟩
    have known := declared hf
    unfold declaredAt? at undeclared
    obtain ⟨b, hb, hd⟩ := Option.map_eq_some_iff.mp undeclared
    rw [Option.bind_some, hb, Option.bind_some, hd] at known
    cases known

end Scopes

namespace Session

open Eval

/-- Only the root scope is open, and each of its names has a binding of its own. -/
def Settled (_ : World) (scopes : Scopes) : Prop :=
  scopes.inner = [] ∧ scopes.Proper

theorem settled_initial : Settled World.initial Scopes.empty :=
  ⟨rfl, Scopes.proper_empty⟩

theorem scopes_enter (host : Option Host) (s : Session) (e : Entry) :
    (s.enter host e).2.scopes = (check e.node s.scopes e.node.blankNotes).scopes := by
  unfold enter
  dsimp only
  split <;> rfl

theorem keeps_settled (host : Option Host) : Keeps host Settled where
  interrupt _ _ _ h := h
  enter s e h := by
    obtain ⟨⟨t, runs, scopes⟩, -, -⟩ := check_runs e.node s.scopes h.1
    rw [scopes_enter, scopes]
    exact ⟨rfl, (runs.proper h.2).congr rfl rfl⟩

/-- An entry, whatever becomes of it, after any requests and any earlier entries of its submission:
a name that it does not define in the root scope before a misplaced return is bound there as before,
if it was, with the same type declared. The type of the binding is the same too, unless none is
declared and the entry assigns to the name before such a return. -/
theorem enter_stays (host : Option Host) (rs : List Request) (es : List Entry) (e : Entry)
    (name : String) :
    let s := ((initial.serveAll host rs).enterAll host none es).2
    let t := (s.enter host e).2
    let done := ScopeEvent.atRoot [] e.node.visited
    .defines name ∉ done →
      (t.scopes.rootBinding? name).map (·.declared) =
          (s.scopes.rootBinding? name).map (·.declared) ∧
        ((.assigns name ∈ done → ((s.scopes.rootBinding? name).bind (·.declared)).isSome) →
          (t.scopes.rootBinding? name).map (·.type) =
            (s.scopes.rootBinding? name).map (·.type)) := by
  intro s t done undefined
  have settled : Settled s.world s.scopes :=
    (keeps_settled host).enterAll es none ((keeps_settled host).serveAll rs settled_initial)
  obtain ⟨⟨u, runs, scopes⟩, -, -⟩ := check_runs e.node s.scopes settled.1
  have within : s.scopes.Within [] := by
    rw [Scopes.Within, settled.1]
    exact .nil
  have stays := runs.stays (Scopes.since_of_inner settled.1) settled.2 within undefined
  rw [scopes_enter, scopes]
  exact stays.rootBinding? settled.2

/-- An assignment that fails, to a name with a declared type. -/
theorem enter_stays_declaredSample :
    let rs := [Request.submit "let $x: Int = 1".toList false]
    let s := ((initial.serveAll none rs).enterAll none none []).2
    let quotient := Node.binary none .div (.literal none (.int 1)) (.literal none (.int 0))
    let e : Entry := ⟨[], .assign none "x" quotient⟩
    let t := (s.enter none e).2
    .defines "x" ∉ ScopeEvent.atRoot [] e.node.visited ∧
      (s.scopes.rootBinding? "x").isSome ∧
      (t.scopes.rootBinding? "x").map (·.declared) = (s.scopes.rootBinding? "x").map (·.declared) ∧
      (t.scopes.rootBinding? "x").map (·.type) = (s.scopes.rootBinding? "x").map (·.type) := by
  intro rs s quotient e t
  have undefined : .defines "x" ∉ ScopeEvent.atRoot [] e.node.visited := by decide +kernel
  have declared : ((s.scopes.rootBinding? "x").bind (·.declared)).isSome := by decide +kernel
  obtain ⟨same, type⟩ := enter_stays none rs [] e "x" undefined
  exact ⟨undefined, by decide +kernel, same, type fun _ => declared⟩

/-- The integer that a name without a declared type is bound to, if it is bound to one. -/
def undeclaredInt? : Option Slot → Option Int
  | some ⟨.int n, none⟩ => some n
  | _ => none

theorem undeclaredInt?_eq_some_iff {slot : Option Slot} {n : Int} :
    undeclaredInt? slot = some n ↔ slot = some ⟨.int n, none⟩ := by
  unfold undeclaredInt?
  split <;> simp_all

/-- A failure leaves in the root scope what the entry did to it before: a definition whose name has
got no value, and the type of a value that was never assigned. -/
theorem runScript_leavesTypes :
    let r := initial.runScript none "let $x = 1 / 0".toList
    let s := (initial.runScript none "let $x = 1".toList).2
    let t := s.runScript none "$x = 1.5 / 0".toList
    (r.1.status = "error" ∧ r.2.world.store.slotIn? rootFrame "x" = none ∧
        initial.scopes.rootBinding? "x" = none ∧
        (r.2.scopes.rootBinding? "x").map (·.type) = some .int) ∧
      (t.1.status = "error" ∧
        t.2.world.store.slotIn? rootFrame "x" = s.world.store.slotIn? rootFrame "x" ∧
        (s.scopes.rootBinding? "x").map (·.type) = some .int ∧
        (t.2.scopes.rootBinding? "x").map (·.type) = some .float) := by
  intro r s t
  have unbound : r.2.world.store.slotIn? rootFrame "x" = none :=
    Option.isNone_iff_eq_none.mp (by decide +kernel)
  have before : s.world.store.slotIn? rootFrame "x" = some ⟨.int 1, none⟩ :=
    undeclaredInt?_eq_some_iff.mp (by decide +kernel)
  have after : t.2.world.store.slotIn? rootFrame "x" = some ⟨.int 1, none⟩ :=
    undeclaredInt?_eq_some_iff.mp (by decide +kernel)
  exact ⟨⟨by decide +kernel, unbound, by decide +kernel, by decide +kernel⟩,
    by decide +kernel, after.trans before.symm, by decide +kernel, by decide +kernel⟩

end Session

end Sigil
