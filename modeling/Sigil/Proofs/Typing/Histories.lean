import Mathlib.Data.List.Forall2
import Mathlib.Tactic.SplitIfs
import Sigil.Proofs.Node.Meanings
import Sigil.Proofs.Typing.Inferred
import Sigil.Proofs.Typing.Runs

/-!
# Scopes and histories

The scopes that the checker keeps, in the course of a tree, are those that the
events so far have opened (`Scopes.Tracks`): each name means in them the binding
of the definition that it means by the history, and the binding of a `let` has
the type and the mark of use that the history gives it. The table holds the
bindings of all definitions so far in order, after the `base` bindings that were
there before the tree (`Stored`).

There is a lemma for each event, about what the checker does to its scopes when
it comes to it.
-/

namespace Sigil

/-- The report that a definition is not used. -/
def Definition.report (d : Definition) : Diagnostic :=
  (Finding.unused d.name).diagnostic d.span

namespace NameHistory

variable {base : Nat} {past later : NameHistory} {i j : Nat} {d e : Definition}

/-- The binding of a definition stands at a place of the table. -/
def Stored (base : Nat) (past : NameHistory) (i : Nat) (d : Definition) : Prop :=
  ∃ k, i = base + k ∧ (made past).reverse[k]? = some d

theorem Stored.le (h : Stored base past i d) : base ≤ i := by
  obtain ⟨k, rfl, -⟩ := h
  exact Nat.le_add_right _ _

theorem Stored.lt (h : Stored base past i d) : i < base + (made past).length := by
  obtain ⟨k, rfl, hk⟩ := h
  have := (List.getElem?_eq_some_iff.mp hk).1
  rw [List.length_reverse] at this
  omega

theorem Stored.mem (h : Stored base past i d) : d ∈ made past := by
  obtain ⟨k, -, hk⟩ := h
  exact List.mem_reverse.mp (List.mem_of_getElem? hk)

/-- What was stored stays where it is. -/
theorem Stored.append (h : Stored base past i d) (later : NameHistory) :
    Stored base (later ++ past) i d := by
  obtain ⟨k, rfl, hk⟩ := h
  refine ⟨k, rfl, ?_⟩
  rw [made_append, List.reverse_append,
    List.getElem?_append_left (List.getElem?_eq_some_iff.mp hk).1]
  exact hk

theorem Stored.unique (h : Stored base past i d) (k : Stored base past i e) : d = e := by
  obtain ⟨m, rfl, hm⟩ := h
  obtain ⟨n, same, hn⟩ := k
  obtain rfl := Nat.add_left_cancel same
  exact Option.some.inj (hm.symm.trans hn)

theorem Stored.inj (distinct : (made past).Nodup) (h : Stored base past i d)
    (k : Stored base past j d) : i = j := by
  obtain ⟨m, rfl, hm⟩ := h
  obtain ⟨n, rfl, hn⟩ := k
  have bound := (List.getElem?_eq_some_iff.mp hm).1
  rw [(List.getElem?_inj bound (List.nodup_reverse.mpr distinct)).mp (hm.trans hn.symm)]

theorem stored_new (base : Nat) (past : NameHistory) (d : Definition) :
    Stored base (.defines d :: past) (base + (made past).length) d := by
  refine ⟨_, rfl, ?_⟩
  have all : made (.defines d :: past) = d :: made past := rfl
  rw [all, List.reverse_cons, ← List.length_reverse, List.getElem?_concat_length]

theorem Stored.cases (h : Stored base (.defines e :: past) i d) :
    Stored base past i d ∨ d = e ∧ i = base + (made past).length := by
  obtain ⟨k, rfl, hk⟩ := h
  have all : made (.defines e :: past) = e :: made past := rfl
  rw [all, List.reverse_cons] at hk
  by_cases old : k < (made past).reverse.length
  · rw [List.getElem?_append_left old] at hk
    exact .inl ⟨k, rfl, hk⟩
  · have bound := (List.getElem?_eq_some_iff.mp hk).1
    rw [List.length_append, List.length_singleton] at bound
    obtain rfl : k = (made past).reverse.length := by omega
    rw [List.getElem?_concat_length] at hk
    exact .inr ⟨(Option.some.inj hk).symm, by rw [List.length_reverse]⟩

/-- A name has a binding in scopes that is that of what it means by a history; if it means nothing
there, then the binding is older. -/
def Tells (base : Nat) (past : NameHistory) (i : Option Nat) : Option Definition → Prop
  | some d => ∃ j, i = some j ∧ Stored base past j d
  | none => ∀ j ∈ i, j < base

/-- A scope has the names that definitions give it, in the same order. -/
def Tabulates (base : Nat) (past : NameHistory) (scope : Scope) (s : List Definition) : Prop :=
  List.Forall₂ (fun p q => p.1 = q.1 ∧ Stored base past p.2 q.2) scope (lasting s)

variable {scope : Scope} {s : List Definition}

theorem Tells.append {o : Option Nat} {m : Option Definition} (h : Tells base past o m)
    (later : NameHistory) : Tells base (later ++ past) o m := by
  cases m with
  | none => exact h
  | some d =>
    obtain ⟨j, hj, stored⟩ := h
    exact ⟨j, hj, stored.append later⟩

theorem Tabulates.append (h : Tabulates base past scope s) (later : NameHistory) :
    Tabulates base (later ++ past) scope s :=
  h.imp fun _ _ same => ⟨same.1, same.2.append later⟩

/-- A name that such a scope has means what it does by the history, and other names it has not. -/
theorem Tabulates.get? (h : Tabulates base past scope s) (name : String) :
    Option.Rel (Stored base past) (scope.get? name) (s.find? (·.name = name)) := by
  rw [← get?_lasting]
  rw [Tabulates] at h
  generalize lasting s = t at h ⊢
  induction h with
  | nil => exact .none
  | @cons p q _ _ same _ ih =>
    obtain ⟨n, i⟩ := p
    obtain ⟨m, d⟩ := q
    obtain ⟨rfl, stored⟩ := same
    simp only [Names.get?]
    split_ifs
    · exact .some stored
    · exact ih

theorem Tabulates.insert (h : Tabulates base past scope s) (d : Definition)
    (stored : Stored base past i d) : Tabulates base past (scope.insert d.name i) (d :: s) := by
  show List.Forall₂ _ _ ((lasting s).insert d.name d)
  rw [Tabulates] at h
  generalize lasting s = t at h ⊢
  induction h with
  | nil => exact .cons ⟨rfl, stored⟩ .nil
  | @cons p q _ _ same rest ih =>
    obtain ⟨n, j⟩ := p
    obtain ⟨m, e⟩ := q
    obtain ⟨rfl, there⟩ := same
    simp only [Names.insert]
    split_ifs
    · exact .cons ⟨rfl, stored⟩ rest
    · exact .cons ⟨rfl, there⟩ ih

/-- A binding is that of a definition, after some events. Of one that is no `let` only the kind is
told. -/
structure Fits (types : Nat → Ty) (past : NameHistory) (b : Binding) (d : Definition) : Prop where
  kind : b.kind = d.kind
  eq : d.kind = .define →
    b = ⟨typeOf types d past, d.declared, .define, d.span, uses types d past⟩

/-- Before some arguments of a command a name was found to mean the binding at a place, or none. -/
def Aims (base : Nat) (past : NameHistory) (name : String) (target : Option Nat) : Prop :=
  ∀ later j d, (made (later ++ past)).Nodup → Stored base (later ++ past) j d →
    (target = some j ↔ resolve past name = some d)

theorem Aims.decide_eq {name : String} {target : Option Nat} (h : Aims base past name target)
    (later : NameHistory) (distinct : (made (later ++ past)).Nodup)
    (stored : Stored base (later ++ past) j d) :
    decide (resolve past name = some d) = decide (target = some j) :=
  decide_eq_decide.mpr (h later j d distinct stored).symm

end NameHistory

open NameHistory

namespace Scopes

/-- Scopes are what the events so far have made of them. -/
structure Tracks (types : Nat → Ty) (base : Nat) (past : NameHistory) (s : Scopes) : Prop where
  size : s.table.size = base + (made past).length
  inner : List.Forall₂ (Tabulates base past) s.inner (opened past).inner
  root : ∀ name, Tells base past (s.root.get? name) ((opened past).root.find? (·.name = name))
  fits : ∀ i d, Stored base past i d → ∃ b, s.binding? i = some b ∧ Fits types past b d

variable {types : Nat → Ty} {base : Nat} {past later : NameHistory} {s t : Scopes} {i j : Nat}
  {d : Definition} {name : String}

/-- Before the tree there is only the root scope. -/
theorem tracks_nil (inner : s.inner = []) (proper : s.Proper) :
    s.Tracks types s.table.size [] where
  size := rfl
  inner := by
    rw [inner]
    exact .nil
  root name j hj := proper.valid name j hj
  fits i d h := (List.not_mem_nil h.mem).elim

/-- A name means what it does by the history. -/
theorem Tracks.resolve (h : s.Tracks types base past) (name : String) :
    Tells base past (s.resolve name) (NameHistory.resolve past name) := by
  have inner := h.inner
  rw [Scopes.resolve, NameHistory.resolve, OpenScopes.resolve]
  generalize s.inner = scopes, (opened past).inner = open_ at inner ⊢
  induction inner with
  | nil =>
    have root := h.root name
    simpa using root
  | cons first _ ih =>
    have found := first.get? name
    rw [List.cons_append, List.cons_append, List.findSome?_cons, List.findSome?_cons]
    generalize Names.get? _ name = i, List.find? _ _ = d at found ⊢
    cases found with
    | none => exact ih
    | some stored => exact ⟨_, rfl, stored⟩

/-- Every name has a binding in the table, or none. -/
theorem Tracks.resolve_lt (h : s.Tracks types base past) (hi : s.resolve name = some i) :
    i < s.table.size := by
  have meaning := h.resolve name
  rw [hi] at meaning
  rw [h.size]
  cases known : NameHistory.resolve past name with
  | none =>
    rw [known] at meaning
    exact Nat.lt_add_right _ (meaning i rfl)
  | some d =>
    rw [known] at meaning
    obtain ⟨j, same, stored⟩ := meaning
    cases same
    exact stored.lt

theorem Tracks.named?_map (h : s.Tracks types base past) (name : String) :
    (s.named? name).map (·.1) = s.resolve name := by
  rw [named?]
  cases means : s.resolve name with
  | none => rfl
  | some i =>
    rw [Option.bind_some, binding?, Array.getElem?_eq_getElem (h.resolve_lt means)]
    rfl

theorem Tracks.aims (h : s.Tracks types base past) (name : String) :
    Aims base past name ((s.named? name).map (·.1)) := by
  intro later j d distinct stored
  have meaning := (h.resolve name).append later
  rw [h.named?_map]
  cases known : NameHistory.resolve past name with
  | none =>
    rw [known] at meaning
    refine ⟨fun hj => absurd stored.le (Nat.not_le_of_lt (meaning j hj)), fun hd => by cases hd⟩
  | some e =>
    rw [known] at meaning
    obtain ⟨i, hi, there⟩ := meaning
    rw [hi]
    constructor
    · rintro ⟨⟩
      rw [there.unique stored]
    · rintro ⟨⟩
      rw [there.inj distinct stored]

/-- An event that is not about scopes may change bindings. -/
theorem Tracks.revise (h : s.Tracks types base past) {past' : NameHistory}
    (opened : opened past' = opened past) (made : made past' = made past)
    (inner : t.inner = s.inner) (root : t.root = s.root) (size : t.table.size = s.table.size)
    (fits : ∀ j d b, Stored base past j d → s.binding? j = some b → Fits types past b d →
      ∃ b', t.binding? j = some b' ∧ Fits types past' b' d) :
    t.Tracks types base past' := by
  have stored {i : Nat} {d : Definition} : Stored base past' i d ↔ Stored base past i d := by
    rw [Stored, Stored, made]
  refine ⟨?_, ?_, fun name => ?_, fun i d hi => ?_⟩
  · rw [size, made, h.size]
  · rw [inner, opened]
    exact h.inner.imp fun _ _ same => same.imp fun _ _ k => ⟨k.1, stored.mpr k.2⟩
  · rw [root, opened]
    have before := h.root name
    revert before
    cases (NameHistory.opened past).root.find? (·.name = name) with
    | none => exact id
    | some d => exact fun ⟨j, hj, k⟩ => ⟨j, hj, stored.mpr k⟩
  · obtain ⟨b, hb, fit⟩ := h.fits i d (stored.mp hi)
    exact fits i d b (stored.mp hi) hb fit

theorem binding?_modify (s : Scopes) (i j : Nat) (f : Binding → Binding) :
    (s.modify i f).binding? j = if i = j then (s.binding? j).map f else s.binding? j :=
  Array.getElem?_modify

/-- A change of one binding. -/
theorem Tracks.modify (h : s.Tracks types base past) {past' : NameHistory}
    (opened : opened past' = opened past) (made : made past' = made past) (i : Nat)
    (f : Binding → Binding)
    (fits : ∀ j d b, Stored base past j d → s.binding? j = some b → Fits types past b d →
      Fits types past' (if i = j then f b else b) d) :
    (s.modify i f).Tracks types base past' := by
  refine h.revise opened made rfl rfl Array.size_modify fun j d b hj hb fit => ?_
  refine ⟨_, ?_, fits j d b hj hb fit⟩
  rw [binding?_modify, hb]
  split_ifs <;> rfl

/-! ### Events -/

attribute [local simp] uses typeOf

theorem Tracks.enter (h : s.Tracks types base past) :
    s.enter.Tracks types base (.opens :: past) where
  size := h.size
  inner := .cons .nil h.inner
  root := h.root
  fits i d hi := by
    obtain ⟨b, hb, fit⟩ := h.fits i d hi
    exact ⟨b, hb, fit.kind, fit.eq⟩

theorem Tracks.leave (h : s.Tracks types base past) :
    s.leave.Tracks types base (.closes :: past) where
  size := h.size
  inner := by
    rw [opened, OpenScopes.next, ← List.drop_one]
    exact List.forall₂_drop 1 h.inner
  root := h.root
  fits i d hi := by
    obtain ⟨b, hb, fit⟩ := h.fits i d hi
    exact ⟨b, hb, fit.kind, fit.eq⟩

theorem Tracks.define (h : s.Tracks types base past) {b : Binding}
    (fit : Fits types (.defines d :: past) b d) (distinct : (made (.defines d :: past)).Nodup) :
    (s.define d.name b).2.Tracks types base (.defines d :: past) where
  size := by
    rw [size_define, h.size, Nat.add_assoc]
    rfl
  inner := by
    have inner := h.inner.imp fun _ _ same => same.append [.defines d]
    rw [inner_define, opened, OpenScopes.next, OpenScopes.add]
    generalize s.inner = scopes, (opened past).inner = open_ at inner ⊢
    cases inner with
    | nil => exact .nil
    | cons first rest => exact .cons (first.insert d (h.size ▸ stored_new base past d)) rest
  root name := by
    have before := (h.root name).append [.defines d]
    have inner := h.inner
    rw [get?_root_define, opened, OpenScopes.next, OpenScopes.add]
    generalize s.inner = scopes, (opened past).inner = open_ at inner ⊢
    cases inner with
    | cons => simpa using before
    | nil =>
      rw [List.singleton_append, List.find?_cons]
      by_cases e : d.name = name
      · simp only [e, and_self, if_true, decide_true]
        exact ⟨_, rfl, h.size ▸ stored_new base past d⟩
      · simp only [e, and_false, if_false, decide_false]
        exact before
  fits i e hi := by
    rcases hi.cases with old | ⟨rfl, rfl⟩
    · obtain ⟨b', hb, fit'⟩ := h.fits i e old
      have bound : i < s.table.size := h.size ▸ old.lt
      have other : d ≠ e := fun same => (List.nodup_cons.mp distinct).1 (same ▸ old.mem)
      refine ⟨b', by rw [binding?_define _ _ bound, hb], fit'.kind, fun isLet => ?_⟩
      rw [fit'.eq isLet, typeOf, if_neg other]
      rfl
    · refine ⟨b, ?_, fit⟩
      rw [binding?, table_define, ← h.size, Array.getElem?_push_size]

/-- An event that changes no binding. -/
theorem Tracks.idle (h : s.Tracks types base past) {e : NameEvent}
    (opened : opened (e :: past) = opened past) (made : made (e :: past) = made past)
    (typeOf : ∀ j d, Stored base past j d → d.kind = .define →
      typeOf types d (e :: past) = typeOf types d past)
    (uses : ∀ j d, Stored base past j d → d.kind = .define →
      uses types d (e :: past) = uses types d past) :
    s.Tracks types base (e :: past) :=
  h.revise opened made rfl rfl rfl fun j d b hj hb fit =>
    ⟨b, hb, fit.kind, fun isLet => by rw [typeOf j d hj isLet, uses j d hj isLet, fit.eq isLet]⟩

/-- An event that marks a binding as used. -/
theorem Tracks.use (h : s.Tracks types base past) {e : NameEvent} (i : Nat)
    (opened : opened (e :: past) = opened past) (made : made (e :: past) = made past)
    (typeOf : ∀ d, typeOf types d (e :: past) = typeOf types d past)
    (uses : ∀ j d, Stored base past j d → d.kind = .define →
      uses types d (e :: past) = (uses types d past || decide (i = j))) :
    (s.modify i ({ · with used := true })).Tracks types base (e :: past) := by
  refine h.modify opened made i _ fun j d b hj hb fit => ?_
  refine ⟨by split_ifs <;> exact fit.kind, fun isLet => ?_⟩
  rw [typeOf, uses j d hj isLet, fit.eq isLet]
  split_ifs with same
  · rw [decide_eq_true same, Bool.or_true]
  · rw [decide_eq_false same, Bool.or_false]

theorem Tracks.refers (h : s.Tracks types base past) (distinct : (made past).Nodup)
    (aims : Aims base past name (some i)) :
    (s.modify i ({ · with used := true })).Tracks types base (.refers name :: past) := by
  refine h.use i rfl rfl (fun _ => rfl) fun j d hj _ => ?_
  rw [NameHistory.uses, aims.decide_eq [] distinct hj]
  simp only [Option.some_inj]

/-- A reference to a name that means nothing. -/
theorem Tracks.refers_none (h : s.Tracks types base past) (distinct : (made past).Nodup)
    (aims : Aims base past name none) : s.Tracks types base (.refers name :: past) := by
  refine h.idle rfl rfl (fun _ _ _ _ => rfl) fun j d hj _ => ?_
  rw [uses, aims.decide_eq [] distinct hj]
  exact Bool.or_false _

/-- An assignment changes the type of what has no type declared. -/
theorem Tracks.assigns (h : s.Tracks types base past) (distinct : (made past).Nodup)
    (aims : Aims base past name (some i))
    (free : ∀ d, Stored base past i d → d.kind = .define → d.declared = none) (value : Nat) :
    (s.modify i fun b => { b with type := Ty.join [b.type, types value] }).Tracks types base
      (.assigns name value :: past) := by
  have same : opened (.assigns name value :: past) = opened past := rfl
  refine h.modify same rfl i _ fun j d b hj hb fit => ?_
  refine ⟨by split_ifs <;> exact fit.kind, fun isLet => ?_⟩
  have means := aims [] j d distinct hj
  rw [Option.some_inj] at means
  rw [fit.eq isLet, typeOf]
  simp only [← means]
  split_ifs with same changes changes
  · rfl
  · exact absurd ⟨free d (same ▸ hj) isLet, same⟩ changes
  · exact absurd changes.2 same
  · rfl

/-- An assignment to what has its type declared, or to a name that means nothing. -/
theorem Tracks.assigns_fixed (h : s.Tracks types base past) (distinct : (made past).Nodup)
    {target : Option Nat} (aims : Aims base past name target)
    (fixed : ∀ j d, target = some j → Stored base past j d → d.kind = .define →
      d.declared ≠ none) (value : Nat) :
    s.Tracks types base (.assigns name value :: past) := by
  refine h.idle rfl rfl (fun j d hj isLet => ?_) fun _ _ _ _ => rfl
  rw [typeOf, if_neg]
  rintro ⟨undeclared, means⟩
  exact fixed j d ((aims [] j d distinct hj).mpr means) hj isLet undeclared

/-- The word of a command that means what may be a function. -/
theorem Tracks.commands (h : s.Tracks types base (later ++ past))
    (distinct : (made (later ++ past)).Nodup) (aims : Aims base past name (some i))
    (called : ∀ b, s.binding? i = some b → b.kind = .define → mayCall b.type) :
    (s.modify i ({ · with used := true })).Tracks types base
      (.commands name later.length :: (later ++ past)) := by
  refine h.use i rfl rfl (fun _ => rfl) fun j d hj isLet => ?_
  rw [uses, List.drop_left, aims.decide_eq later distinct hj]
  simp only [Option.some_inj]
  by_cases same : i = j
  · subst same
    obtain ⟨b, hb, fit⟩ := h.fits i d hj
    have may := called b hb (fit.kind.trans isLet)
    rw [fit.eq isLet] at may
    rw [may, Bool.and_true]
  · rw [decide_eq_false same, Bool.false_and]

/-- The word of a command that means nothing, or nothing that may be a function. -/
theorem Tracks.commands_none (h : s.Tracks types base (later ++ past))
    (distinct : (made (later ++ past)).Nodup) {target : Option Nat}
    (aims : Aims base past name target)
    (passed : ∀ i b, target = some i → s.binding? i = some b → b.kind = .define →
      ¬ mayCall b.type) :
    s.Tracks types base (.commands name later.length :: (later ++ past)) := by
  refine h.idle rfl rfl (fun _ _ _ _ => rfl) fun j d hj isLet => ?_
  rw [uses, List.drop_left, aims.decide_eq later distinct hj]
  by_cases same : target = some j
  · obtain ⟨b, hb, fit⟩ := h.fits j d hj
    have may := passed j b same hb (fit.kind.trans isLet)
    rw [fit.eq isLet, Bool.not_eq_true] at may
    rw [may, Bool.and_false, Bool.or_false]
  · rw [decide_eq_false same, Bool.false_and, Bool.or_false]

/-- A function is given its type. -/
theorem Tracks.retype (h : s.Tracks types base past) (hi : Stored base past i d)
    (other : d.kind ≠ .define) (t : Ty) :
    (s.modify i ({ · with type := t })).Tracks types base past := by
  refine h.modify rfl rfl i _ fun j e b hj hb fit => ?_
  split_ifs with same
  · subst same
    exact ⟨fit.kind, fun isLet => absurd (hi.unique hj ▸ isLet) other⟩
  · exact fit

/-- The bindings of the innermost scope are those of the definitions that last in it. -/
theorem Tracks.bindings (h : s.Tracks types base past) (within : (opened past).inner ≠ []) :
    List.Forall₂ (fun nb d => nb.1 = d.name ∧ Fits types past nb.2 d) s.bindings
      ((lasting ((opened past).inner.head?.getD [])).map (·.2)) := by
  have inner := h.inner
  rw [Scopes.bindings]
  generalize s.inner = scopes, (opened past).inner = open_ at inner within ⊢
  cases inner with
  | nil => exact absurd rfl within
  | @cons scope top _ _ first _ =>
    rw [List.head?_cons, List.head?_cons, Option.getD_some, Option.getD_some]
    have named : ∀ e ∈ lasting top, e.2.name = e.1 := fun _ => lasting_name
    rw [Tabulates] at first
    generalize lasting top = entries at first named ⊢
    induction first with
    | nil => exact .nil
    | @cons p q _ _ same _ ih =>
      obtain ⟨n, i⟩ := p
      obtain ⟨own, others⟩ := List.forall_mem_cons.mp named
      obtain ⟨b, hb, fit⟩ := h.fits i q.2 same.2
      simp only [List.filterMap_cons, hb, Option.map_some, List.map_cons]
      exact .cons ⟨same.1.trans own.symm, fit⟩ (ih others)

/-- When a scope is left, those of its names are reported whose definitions are found unused. -/
theorem Tracks.reported (h : s.Tracks types base past) (within : (opened past).inner ≠ []) :
    ((s.bindings.filter fun nb => nb.2.kind = .define ∧ ¬ nb.2.used ∧
        nb.1.toList.head? ≠ some '_').map fun nb => (Finding.unused nb.1).diagnostic nb.2.span) =
      (((lasting ((opened past).inner.head?.getD [])).map (·.2)).filter
        (isUnused types past)).map Definition.report := by
  have bindings := h.bindings within
  generalize s.bindings = bs, (lasting _).map _ = ds at bindings ⊢
  induction bindings with
  | nil => rfl
  | @cons nb d _ _ same _ ih =>
    obtain ⟨n, b⟩ := nb
    obtain rfl : n = d.name := same.1
    have fit : Fits types past b d := same.2
    have found : decide (b.kind = .define ∧ ¬ b.used ∧ d.name.toList.head? ≠ some '_') =
        isUnused types past d := by
      by_cases isLet : d.kind = .define
      · rw [fit.eq isLet]
        simp [isUnused, isLet]
      · have other : b.kind ≠ .define := fun e => isLet (fit.kind.symm.trans e)
        simp [isUnused, isLet, other]
    rw [List.filter_cons, List.filter_cons, found]
    split_ifs with free
    · have span : b.span = d.span := by
        simp only [isUnused, Bool.and_eq_true, decide_eq_true_iff] at free
        rw [fit.eq free.1.1]
      rw [List.map_cons, List.map_cons, ih, span, Definition.report]
    · exact ih

end Scopes

end Sigil
