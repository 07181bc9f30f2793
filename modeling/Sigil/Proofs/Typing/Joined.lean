import Sigil.Proofs.Ty.Joined
import Sigil.Proofs.Typing.Unused

/-!
# Types of what is assigned to

A `let` without a declared type starts with the type of its value, and every
assignment brings its type together with the one of the value assigned. As types
may be brought together in any way, what comes out is what its value has in
common with all values that the tree assigns to it
(`NameHistory.typeOf_eq_join`, `check_let_type`).
-/

namespace Sigil

namespace NameHistory

variable {types : Nat → Ty} {past : NameHistory} {d : Definition}

/-- The places of the values that were assigned to what was defined, the latest first. -/
def assigned (d : Definition) : NameHistory → List Nat
  | [] => []
  | .assigns name value :: past =>
    if resolve past name = some d then value :: assigned d past else assigned d past
  | _ :: past => assigned d past

/-- What is not defined yet is not assigned to. -/
theorem assigned_eq_nil (h : d ∉ made past) : assigned d past = [] := by
  induction past with
  | nil => rfl
  | cons e past ih =>
    cases e with
    | opens | closes | refers | commands => exact ih h
    | defines e => exact ih fun before => h (List.mem_cons_of_mem e before)
    | assigns name value =>
      rw [assigned, if_neg]
      · exact ih h
      · intro means
        exact h (mem_made_of_opened (OpenScopes.mem_all_of_resolve means))

/-- What no type is declared for has the type that its value has in common with all that was
assigned to it. -/
theorem typeOf_eq_join (free : d.declared = none) (distinct : (made past).Nodup)
    (h : d ∈ made past) : typeOf types d past =
      Ty.join (types (d.place + 1) :: (assigned d past).map types) := by
  induction past with
  | nil => cases h
  | cons e past ih =>
    cases e with
    | opens | closes | refers | commands => exact ih distinct h
    | defines e =>
      obtain ⟨new, distinct⟩ := List.nodup_cons.mp distinct
      rw [typeOf]
      split_ifs with same
      · subst same
        have nothing : assigned e (.defines e :: past) = [] :=
          show assigned e past = [] from assigned_eq_nil new
        rw [free, nothing]
        rfl
      · exact ih distinct ((List.mem_cons.mp h).resolve_left (Ne.symm same))
    | assigns name value =>
      rw [typeOf, assigned, ih distinct h]
      by_cases means : resolve past name = some d
      · rw [if_pos ⟨free, means⟩, if_pos means, Ty.join_join_cons]
        refine Ty.join_congr fun s => ?_
        simp only [List.map_cons, List.mem_cons, List.mem_append, List.not_mem_nil, or_false]
        tauto
      · rw [if_neg fun both => means both.2, if_neg means]

end NameHistory

open NameHistory

/-! ## Single assignments -/

theorem Scopes.named?_modify {s : Scopes} {name : String} {i : Nat} {b : Binding}
    (h : s.named? name = some (i, b)) (f : Binding → Binding) :
    (s.modify i f).named? name = some (i, f b) := by
  obtain ⟨j, means, there⟩ := Option.bind_eq_some_iff.mp h
  obtain ⟨b', hb, same⟩ := Option.map_eq_some_iff.mp there
  cases same
  have resolved : (s.modify i f).resolve name = some i := means
  rw [Scopes.named?, resolved, Option.bind_some, Scopes.binding?_modify, if_pos rfl, hb]
  rfl

namespace Check

variable {c : Checker} {name : String} {i : Nat} {b : Binding} {span valueSpan : Option Span}

/-- An assignment to what no type is declared for. -/
theorem assignType_meets (h : c.scopes.named? name = some (i, b)) (free : b.declared = none)
    (found : Ty) :
    Meets (assignType name found span valueSpan) c
      (fun _ d => d.scopes.named? name = some (i, { b with type := Ty.join [b.type, found] }))
      fun _ _ => False := by
  obtain ⟨type, declared, kind, place, used⟩ := b
  subst free
  refine Meets.bind (Meets.bind (Meets.get (Meets.pure ?_)))
  have means : ((c.scopes.resolve name).bind fun i => (c.scopes.binding? i).map (i, ·)) =
      some (i, ⟨type, none, kind, place, used⟩) := h
  rw [means]
  exact Meets.bind (Meets.modify (Meets.pure (Scopes.named?_modify h _)))

/-- Assignments one after the other, with one more type brought in by each. -/
theorem assignTypes_meets (founds : List Ty) (h : c.scopes.named? name = some (i, b))
    (free : b.declared = none) :
    Meets (founds.forM fun t => discard (assignType name t span valueSpan)) c
      (fun _ d => d.scopes.named? name =
        some (i, { b with type := Ty.join (b.type :: founds) }))
      fun _ _ => False := by
  induction founds generalizing c b with
  | nil => exact Meets.pure h
  | cons found founds ih =>
    refine Meets.bind (Meets.bind (Meets.mono (assignType_meets h free found)
      (fun _ d hd => Meets.pure (Meets.mono (ih hd free) (fun _ e he => ?_) fun _ _ => id))
      fun _ _ => id))
    rw [he, Ty.join_join_cons]
    rfl

end Check

/-! ## Whole trees -/

variable {n : Node} {scopes : Scopes} {t : Ty} {d : Definition}

/-- The binding of a `let` for which no type is declared ends up with the type that its value has in
common with all values that the tree assigns to it. -/
theorem check_let_type (inner : scopes.inner = []) (proper : scopes.Proper)
    (ok : (check n scopes n.blankNotes).outcome = .ok t) (hd : d ∈ Node.lets 0 n.walk)
    (free : d.declared = none) :
    let c := check n scopes n.blankNotes
    ∃ i b, Stored scopes.table.size n.history i d ∧ c.scopes.binding? i = some b ∧
      b.type = Ty.join (c.typeAt (d.place + 1) :: (assigned d n.history).map c.typeAt) := by
  intro c
  obtain ⟨made, isLet⟩ := Node.mem_lets_iff.mp hd
  obtain ⟨k, hk⟩ := List.getElem?_of_mem (List.mem_reverse.mpr made)
  obtain ⟨e, tracks, -, same⟩ := check_tracks inner proper ok
  obtain ⟨b, hb, fits⟩ := tracks.scopes.fits _ d ⟨k, rfl, hk⟩
  refine ⟨_, b, ⟨k, rfl, hk⟩, ?_, ?_⟩
  · rw [same]
    exact hb
  · rw [fits.eq isLet]
    exact typeOf_eq_join free n.nodup_made_history made

/-- The type that several types have in common depends neither on their order nor on how often each
of them occurs, is the same when they are brought together two at a time, in whatever way, and
each of them may stand where it is required. So a name that no type is declared for takes on, by one
assignment after the other, the type that its first one has in common with all of them; in a whole
tree these are the type of its value and those of all values assigned to it. -/
theorem Ty.join_semilattice (t : Ty) (ts : List Ty) :
    (∀ us, (∀ s, s ∈ us ↔ s ∈ t :: ts) → Ty.join us = Ty.join (t :: ts)) ∧
    (∀ b : Bracketing, (∀ s, s ∈ b.types ↔ s ∈ t :: ts) → b.join = Ty.join (t :: ts)) ∧
    (∀ s ∈ t :: ts, (Ty.join (t :: ts)).accepts s) ∧
    (∀ (c : Checker) (name : String) (span valueSpan : Option Span) (i : Nat) (b : Binding),
      c.scopes.named? name = some (i, b) → b.declared = none → b.type = t →
      Check.Meets (ts.forM fun s => discard (Check.assignType name s span valueSpan)) c
        (fun _ d => d.scopes.named? name = some (i, { b with type := Ty.join (t :: ts) }))
        fun _ _ => False) ∧
    ∀ (n : Node) (scopes : Scopes) (found : Ty), scopes.inner = [] → scopes.Proper →
      (check n scopes n.blankNotes).outcome = .ok found →
      let c := check n scopes n.blankNotes
      ∀ d ∈ Node.lets 0 n.walk, d.declared = none →
        ∃ i b, Stored scopes.table.size n.history i d ∧ c.scopes.binding? i = some b ∧
          b.type = Ty.join (c.typeAt (d.place + 1) :: (assigned d n.history).map c.typeAt) := by
  refine ⟨fun us => join_congr, fun b => b.join_eq, fun s hs => accepts_of_below (below_join hs),
    ?_, fun n scopes found inner proper ok => ?_⟩
  · rintro c name span valueSpan i b h free rfl
    exact Check.assignTypes_meets ts h free
  · intro c d hd free
    exact check_let_type inner proper ok hd free

/-- `let $x = 1; $x = "a"; $x = 2`. -/
def mixedSample : Node :=
  .program none [
    .define none "x" none (.literal none (.int 1)),
    .assign none "x" (.literal none (.text "a")),
    .assign none "x" (.literal none (.int 2))]

/-- The integers and the string have only `dynamic` in common. -/
theorem Ty.join_semilattice_mixedSample :
    let c := check mixedSample .empty mixedSample.blankNotes
    (∃ found, c.outcome = .ok found) ∧ ⟨1, .define, "x", none, none⟩ ∈ Node.lets 0 mixedSample.walk ∧
      ∃ i b, Stored 0 mixedSample.history i ⟨1, .define, "x", none, none⟩ ∧
        c.scopes.binding? i = some b ∧ b.type = Ty.join [.int, .int, .string] ∧
        Ty.join [.int, .int, .string] = .dynamic := by
  intro c
  have accepted : c.outcome.toOption.isSome := by decide +kernel
  have isLet : ⟨1, .define, "x", none, none⟩ ∈ Node.lets 0 mixedSample.walk := by decide +kernel
  have types : c.typeAt 2 :: (assigned ⟨1, .define, "x", none, none⟩ mixedSample.history).map
      c.typeAt = [.int, .int, .string] := by
    decide +kernel
  cases outcome : c.outcome with
  | error => simp [outcome, Except.toOption] at accepted
  | ok found =>
    obtain ⟨i, b, stored, hb, type⟩ :=
      (join_semilattice .int []).2.2.2.2 mixedSample .empty found rfl Scopes.proper_empty outcome
        _ isLet rfl
    exact ⟨⟨found, rfl⟩, isLet, i, b, stored, hb, type.trans (congrArg Ty.join types), rfl⟩

end Sigil
