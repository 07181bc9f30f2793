import Mathlib.Data.List.Forall2
import Mathlib.Tactic.SplitIfs
import Sigil.Proofs.Node.Events
import Sigil.Proofs.Typing.Visible

/-!
# Events and scopes

What an event does to scopes is said as a relation (`Scopes.Does`), since the
types that a definition and an assignment give are not to be had from a tree.
Between the events bindings are used, and functions that were met on the way
are given their types (`Scopes.Runs`).

The root scope keeps its names and gets those that are defined in it
(`Runs.defines`). A name that no event defines there keeps its binding, with
the type declared for it, and with its type, if that is declared or nothing is
assigned to it there (`Runs.stays`).
-/

namespace Sigil

namespace Scopes

/-- The type of the binding at a place of the table. -/
def typeAt? (s : Scopes) (i : Nat) : Option Ty :=
  (s.binding? i).map (·.type)

/-- What is declared for the binding at a place of the table. -/
def declaredAt? (s : Scopes) (i : Nat) : Option (Option Ty) :=
  (s.binding? i).map (·.declared)

/-- Only bindings were changed. Of those below `base`, the declared types stay, and the types too
but for those that are free. -/
structure Revises (base : Nat) (free : Nat → Prop) (s t : Scopes) : Prop where
  inner : t.inner = s.inner
  root : t.root = s.root
  size : t.table.size = s.table.size
  declared : ∀ i < base, t.declaredAt? i = s.declaredAt? i
  type : ∀ i < base, ¬ free i → t.typeAt? i = s.typeAt? i

/-- What an event does to scopes. An assignment may change the type of the binding that the name
means, if none is declared for it. -/
inductive Does (base : Nat) : ScopeEvent → Scopes → Scopes → Prop
  | opens (s : Scopes) : Does base .opens s s.enter
  | closes (s : Scopes) : Does base .closes s s.leave
  | defines (s : Scopes) (name : String) (b : Binding) :
    Does base (.defines name) s (s.define name b).2
  | assigns {s t : Scopes} {name : String}
    (h : Revises base (fun i => s.resolve name = some i ∧ s.declaredAt? i = some none) s t) :
    Does base (.assigns name) s t
  | returns (s : Scopes) (span : Option Span) : Does base (.returns span) s s

/-- What several events do to scopes, one after the other, while bindings are used and functions are
given their types. -/
inductive Runs (base : Nat) : List ScopeEvent → Scopes → Scopes → Prop
  | refl (s : Scopes) : Runs base [] s s
  | quiet {s t u : Scopes} {es : List ScopeEvent} :
    Revises base (fun _ => False) s t → Runs base es t u → Runs base es s u
  | step {s t u : Scopes} {e : ScopeEvent} {es : List ScopeEvent} :
    Does base e s t → Runs base es t u → Runs base (e :: es) s u

variable {base : Nat} {s t u : Scopes} {es fs : List ScopeEvent}

theorem Runs.trans (h : Runs base es s t) (k : Runs base fs t u) : Runs base (es ++ fs) s u := by
  induction h with
  | refl => exact k
  | quiet revised _ ih => exact .quiet revised (ih k)
  | step does _ ih => exact .step does (ih k)

theorem Does.runs {e : ScopeEvent} (h : Does base e s t) : Runs base [e] s t :=
  .step h (.refl t)

theorem Revises.runs (h : Revises base (fun _ => False) s t) : Runs base [] s t :=
  .quiet h (.refl t)

/-- Returns do nothing. -/
theorem Runs.filter (h : Runs base es s t) : Runs base (es.filter ScopeEvent.isPassed) s t := by
  induction h with
  | refl => exact .refl _
  | quiet revised _ ih => exact .quiet revised ih
  | step does _ ih =>
    cases does with
    | returns => exact ih
    | opens | closes | defines => exact .step (by constructor) ih
    | assigns h => exact .step (.assigns h) ih

/-- A change of the binding at a place. -/
theorem revises_modify {free : Nat → Prop} (s : Scopes) (i : Nat) (f : Binding → Binding)
    (declared : i < base → ∀ b, (f b).declared = b.declared)
    (type : i < base → ¬ free i → ∀ b, (f b).type = b.type) :
    Revises base free s (s.modify i f) := by
  have binding (j : Nat) : (s.modify i f).binding? j =
      if i = j then (s.binding? j).map f else s.binding? j :=
    Array.getElem?_modify
  refine ⟨rfl, rfl, Array.size_modify, fun j hj => ?_, fun j hj fixed => ?_⟩
  · rw [declaredAt?, declaredAt?, binding]
    split_ifs with e
    · subst e
      rw [Option.map_map]
      exact congrArg (Option.map · _) (funext (declared hj))
    · rfl
  · rw [typeAt?, typeAt?, binding]
    split_ifs with e
    · subst e
      rw [Option.map_map]
      exact congrArg (Option.map · _) (funext (type hj fixed))
    · rfl

theorem fst_define (s : Scopes) (name : String) (b : Binding) :
    (s.define name b).1 = s.table.size := by
  unfold define
  cases s.inner <;> rfl

theorem inner_define (s : Scopes) (name : String) (b : Binding) :
    (s.define name b).2.inner =
      match s.inner with
      | [] => []
      | top :: outer => top.insert name s.table.size :: outer := by
  unfold define
  cases s.inner <;> rfl

/-- All bindings that the scopes within the root mean are in the table, from `base` on. -/
structure Since (base : Nat) (s : Scopes) : Prop where
  size : base ≤ s.table.size
  inner : ∀ scope ∈ s.inner, ∀ name i, scope.get? name = some i → base ≤ i ∧ i < s.table.size

theorem since_of_inner (h : s.inner = []) : Since s.table.size s :=
  ⟨Nat.le_refl _, by rw [h]; nofun⟩

theorem Since.congr (h : Since base s) (size : t.table.size = s.table.size)
    (inner : t.inner = s.inner) : Since base t :=
  ⟨size ▸ h.size, by rw [size, inner]; exact h.inner⟩

theorem Does.since {e : ScopeEvent} (h : Does base e s t) (hs : Since base s) : Since base t := by
  cases h with
  | returns => exact hs
  | assigns h => exact hs.congr h.size h.inner
  | closes => exact ⟨hs.size, fun scope hm => hs.inner scope (List.mem_of_mem_drop hm)⟩
  | opens =>
    refine ⟨hs.size, fun scope hm => ?_⟩
    rcases List.mem_cons.mp hm with rfl | hm
    · exact fun _ _ => nofun
    · exact hs.inner scope hm
  | defines _ name b =>
    have size := s.size_define name b
    have within : ∀ scope ∈ s.inner, ∀ other i, scope.get? other = some i →
        base ≤ i ∧ i < s.table.size + 1 := fun scope hm other i hi =>
      (hs.inner scope hm other i hi).imp id Nat.lt_succ_of_lt
    refine ⟨Nat.le_trans hs.size (size ▸ Nat.le_succ _), fun scope hm other i hi => ?_⟩
    rw [size]
    rw [inner_define] at hm
    cases opened : s.inner with
    | nil =>
      rw [opened] at hm
      cases hm
    | cons top outer =>
      rw [opened] at hm within
      rcases List.mem_cons.mp hm with rfl | hm
      · rw [Names.get?_insert] at hi
        split_ifs at hi
        · cases hi
          exact ⟨hs.size, Nat.lt_succ_self _⟩
        · exact within top List.mem_cons_self other i hi
      · exact within scope (List.mem_cons_of_mem _ hm) other i hi

theorem Runs.since (h : Runs base es s t) (hs : Since base s) : Since base t := by
  induction h with
  | refl => exact hs
  | quiet revised _ ih => exact ih (hs.congr revised.size revised.inner)
  | step does _ ih => exact ih (does.since hs)

/-! ### The root scope -/

/-- The binding that a name means in the root scope. -/
def rootBinding? (s : Scopes) (name : String) : Option Binding :=
  (s.root.get? name).bind s.binding?

theorem rootBinding?_isSome_iff {name : String} :
    (s.rootBinding? name).isSome ↔ ∃ i, s.root.get? name = some i ∧ i < s.table.size := by
  simp [rootBinding?, binding?, Option.isSome_bind, Option.any_eq_true]

/-- Where a name that is looked for has no binding, the root scope has none for it. -/
theorem rootBinding?_eq_none {name : String} (hs : Since base s)
    (h : (s.resolve name).bind s.binding? = none) : s.rootBinding? name = none := by
  cases hr : s.inner.findSome? (·.get? name) with
  | none =>
    have means : s.resolve name = s.root.get? name := by
      rw [resolve, List.findSome?_append, hr]
      simp
    rw [means] at h
    exact h
  | some i =>
    obtain ⟨scope, hm, hi⟩ := List.exists_of_findSome?_eq_some hr
    have means : s.resolve name = some i := by
      rw [resolve, List.findSome?_append, hr]
      rfl
    have valid := (hs.inner scope hm name i hi).2
    rw [means, Option.bind_some, binding?, Array.getElem?_eq_none_iff] at h
    exact absurd valid (Nat.not_lt_of_le h)

theorem get?_root_define (s : Scopes) (name other : String) (b : Binding) :
    (s.define name b).2.root.get? other =
      if s.inner = [] ∧ name = other then some s.table.size else s.root.get? other := by
  unfold define
  cases s.inner with
  | nil => simp [Names.get?_insert]
  | cons top outer => simp

theorem Does.rootBinding? {e : ScopeEvent} (h : Does base e s t) {name : String}
    (hs : (s.rootBinding? name).isSome) : (t.rootBinding? name).isSome := by
  rw [rootBinding?_isSome_iff] at hs ⊢
  obtain ⟨i, hi, valid⟩ := hs
  cases h with
  | opens | closes | returns => exact ⟨i, hi, valid⟩
  | assigns h => exact ⟨i, h.root ▸ hi, h.size ▸ valid⟩
  | defines _ name' b =>
    rw [get?_root_define, size_define]
    split_ifs
    · exact ⟨_, rfl, Nat.lt_succ_self _⟩
    · exact ⟨i, hi, Nat.lt_succ_of_lt valid⟩

/-- The names of the root scope stay. -/
theorem Runs.rootBinding? (h : Runs base es s t) {name : String}
    (hs : (s.rootBinding? name).isSome) : (t.rootBinding? name).isSome := by
  induction h with
  | refl => exact hs
  | quiet revised _ ih =>
    refine ih ?_
    rw [rootBinding?_isSome_iff] at hs ⊢
    rwa [revised.root, revised.size]
  | step does _ ih => exact ih (does.rootBinding? hs)

/-! ### Names of the scopes within the root -/

/-- The scopes within the root have given names. -/
def Within (s : Scopes) (inner : List (List String)) : Prop :=
  List.Forall₂ (fun scope names => ∀ name, name ∈ names ↔ (Names.get? scope name).isSome) s.inner
    inner

variable {inner : List (List String)} {name : String}

theorem Within.eq_nil_iff (h : s.Within inner) : inner = [] ↔ s.inner = [] := by
  cases h' : s.inner <;> cases inner <;> rw [Within, h'] at h <;> cases h <;> simp

/-- A name of one of the given scopes means a binding. -/
theorem Within.findSome?_isSome (h : s.Within inner) {names : List String} (hn : names ∈ inner)
    (there : name ∈ names) : (s.inner.findSome? (·.get? name)).isSome := by
  rw [Within] at h
  generalize s.inner = scopes at h ⊢
  induction h with
  | nil => cases hn
  | @cons scope names' _ _ same _ ih =>
    rw [List.findSome?_cons]
    rcases List.mem_cons.mp hn with rfl | hn
    · obtain ⟨i, hi⟩ := Option.isSome_iff_exists.mp ((same name).mp there)
      rw [hi]
      rfl
    · cases scope.get? name with
      | some i => rfl
      | none => exact ih hn

theorem Does.within {e : ScopeEvent} (h : Does base e s t) (hs : s.Within inner) :
    t.Within (e.next inner) := by
  cases h with
  | returns => exact hs
  | assigns h =>
    rw [Within, h.inner]
    exact hs
  | opens => exact .cons (fun name => by simp) hs
  | closes =>
    rw [Within, leave, List.drop_one]
    cases hi : s.inner <;> cases inner <;> rw [Within, hi] at hs <;> cases hs
    · exact .nil
    · next rest => exact rest
  | defines _ name b =>
    rw [Within, inner_define]
    cases hi : s.inner <;> cases inner <;> rw [Within, hi] at hs <;> cases hs
    · exact .nil
    · next same rest =>
      refine .cons (fun other => ?_) rest
      rw [List.mem_cons, same, Names.get?_insert, eq_comm]
      by_cases e : name = other <;> simp [e]

/-- The names that are defined in the root scope have bindings there. -/
theorem Runs.defines (h : Runs base es s t) (hs : s.Within inner)
    (hn : .defines name ∈ ScopeEvent.atRoot inner es) : (t.rootBinding? name).isSome := by
  induction h generalizing inner with
  | refl => cases hn
  | quiet revised _ ih =>
    refine ih ?_ hn
    rw [Within, revised.inner]
    exact hs
  | @step s t u e es does runs ih =>
    rw [ScopeEvent.atRoot, List.mem_append] at hn
    refine hn.elim (fun here => ?_) (ih (does.within hs))
    split_ifs at here with reaches
    · obtain rfl := List.mem_singleton.mp here
      cases does with
      | defines _ _ b =>
        refine runs.rootBinding? ?_
        rw [rootBinding?_isSome_iff, get?_root_define, size_define,
          if_pos ⟨hs.eq_nil_iff.mp (List.isEmpty_iff.mp reaches), rfl⟩]
        exact ⟨_, rfl, Nat.lt_succ_self _⟩
    · cases here

/-! ### Names that nothing is done to -/

/-- The names of the root scope have bindings of their own. -/
structure Proper (s : Scopes) : Prop where
  valid : ∀ name i, s.root.get? name = some i → i < s.table.size
  distinct : ∀ name other i, s.root.get? name = some i → s.root.get? other = some i → name = other

theorem proper_empty : empty.Proper :=
  ⟨fun _ _ => nofun, fun _ _ _ => nofun⟩

theorem Proper.congr (h : s.Proper) (root : t.root = s.root) (size : t.table.size = s.table.size) :
    t.Proper := by
  refine ⟨?_, ?_⟩
  · rw [root, size]
    exact h.valid
  · rw [root]
    exact h.distinct

theorem Does.proper {e : ScopeEvent} (h : Does base e s t) (hs : s.Proper) : t.Proper := by
  cases h with
  | opens | closes | returns => exact hs.congr rfl rfl
  | assigns h => exact hs.congr h.root h.size
  | defines _ name b =>
    refine ⟨fun other i hi => ?_, fun other another i ho ha => ?_⟩
    · rw [get?_root_define] at hi
      rw [size_define]
      split_ifs at hi
      · cases hi
        exact Nat.lt_succ_self _
      · exact Nat.lt_succ_of_lt (hs.valid other i hi)
    · rw [get?_root_define] at ho ha
      split_ifs at ho ha with eo ea ea
      · exact eo.2.symm.trans ea.2
      · -- a new binding is not in the table yet
        cases ho
        exact absurd (hs.valid another _ ha) (Nat.lt_irrefl _)
      · cases ha
        exact absurd (hs.valid other _ ho) (Nat.lt_irrefl _)
      · exact hs.distinct other another i ho ha

theorem Runs.proper (h : Runs base es s t) (hs : s.Proper) : t.Proper := by
  induction h with
  | refl => exact hs
  | quiet revised _ ih => exact ih (hs.congr revised.root revised.size)
  | step does _ ih => exact ih (does.proper hs)

theorem binding?_define {i : Nat} (name : String) (b : Binding) (hi : i < s.table.size) :
    (s.define name b).2.binding? i = s.binding? i := by
  rw [binding?, binding?, table_define, Array.getElem?_push, if_neg (Nat.ne_of_lt hi)]

/-- A name that had one of the first `base` bindings in the root scope, or none, still has it, with
the same type declared; the type of the binding is the same too, unless it is free to change and
none is declared. -/
structure Stays (base : Nat) (name : String) (free : Prop) (s t : Scopes) : Prop where
  root : t.root.get? name = s.root.get? name
  declared : ∀ i < base, s.root.get? name = some i → t.declaredAt? i = s.declaredAt? i
  type : ∀ i < base, s.root.get? name = some i → ¬ (free ∧ s.declaredAt? i = some none) →
    t.typeAt? i = s.typeAt? i

variable {free free' : Prop}

theorem Stays.refl (base : Nat) (name : String) (free : Prop) (s : Scopes) :
    Stays base name free s s :=
  ⟨rfl, fun _ _ _ => rfl, fun _ _ _ _ => rfl⟩

theorem Stays.trans (h : Stays base name free s t) (k : Stays base name free' t u) :
    Stays base name (free ∨ free') s u where
  root := k.root.trans h.root
  declared i hi hs := (k.declared i hi (h.root.trans hs)).trans (h.declared i hi hs)
  type i hi hs fixed := by
    have later : ¬ (free' ∧ t.declaredAt? i = some none) := fun ⟨hf, hd⟩ =>
      fixed ⟨.inr hf, (h.declared i hi hs).symm.trans hd⟩
    have first : ¬ (free ∧ s.declaredAt? i = some none) := fun ⟨hf, hd⟩ => fixed ⟨.inl hf, hd⟩
    exact (k.type i hi (h.root.trans hs) later).trans (h.type i hi hs first)

theorem Stays.mono (h : Stays base name free s t) (hf : free → free') :
    Stays base name free' s t :=
  ⟨h.root, h.declared, fun i hi hs fixed => h.type i hi hs fun ⟨k, hd⟩ => fixed ⟨hf k, hd⟩⟩

theorem Revises.stays {other : Nat → Prop} (h : Revises base other s t)
    (ho : ∀ i < base, s.root.get? name = some i → other i → free ∧ s.declaredAt? i = some none) :
    Stays base name free s t where
  root := congrArg (Names.get? · name) h.root
  declared i hi _ := h.declared i hi
  type i hi hs fixed := h.type i hi fun here => fixed (ho i hi hs here)

/-- An assignment to a name that means one of the first bindings means the root scope. -/
theorem isAtRoot_assigns {other : String} {i : Nat} (hs : Since base s) (hw : s.Within inner)
    (hi : i < base) (h : s.resolve other = some i) :
    (ScopeEvent.assigns other).isAtRoot inner ∧ s.root.get? other = some i := by
  -- the scopes within the root know later bindings alone
  have unknown : s.inner.findSome? (·.get? other) = none := by
    cases hr : s.inner.findSome? (·.get? other) with
    | none => rfl
    | some j =>
      obtain ⟨scope, hm, hj⟩ := List.exists_of_findSome?_eq_some hr
      rw [resolve, List.findSome?_append, hr] at h
      cases h
      exact absurd hi (Nat.not_lt_of_le (hs.inner scope hm other _ hj).1)
  refine ⟨List.all_eq_true.mpr fun names hn => decide_eq_true fun there => ?_, ?_⟩
  · have known := hw.findSome?_isSome hn there
    rw [unknown] at known
    cases known
  · rw [resolve, List.findSome?_append, unknown] at h
    simpa using h

theorem Does.stays {e : ScopeEvent} (h : Does base e s t) (hs : Since base s) (hp : s.Proper)
    (hw : s.Within inner) (hn : e.isAtRoot inner → e ≠ .defines name) :
    Stays base name (e.isAtRoot inner ∧ e = .assigns name) s t := by
  cases h with
  | opens | closes | returns => exact ⟨rfl, fun _ _ _ => rfl, fun _ _ _ _ => rfl⟩
  | assigns h =>
    refine h.stays fun i hi hr ⟨means, undeclared⟩ => ?_
    obtain ⟨reaches, root⟩ := isAtRoot_assigns hs hw hi means
    exact ⟨⟨reaches, by rw [hp.distinct _ _ i root hr]⟩, undeclared⟩
  | defines _ other b =>
    have same : (s.define other b).2.root.get? name = s.root.get? name := by
      rw [get?_root_define, if_neg]
      rintro ⟨closed, rfl⟩
      exact hn (List.isEmpty_iff.mpr (hw.eq_nil_iff.mpr closed)) rfl
    have binding (i : Nat) (hi : i < base) : (s.define other b).2.binding? i = s.binding? i :=
      binding?_define other b (Nat.lt_of_lt_of_le hi hs.size)
    exact ⟨same, fun i hi _ => congrArg (Option.map _) (binding i hi),
      fun i hi _ _ => congrArg (Option.map _) (binding i hi)⟩

/-- Nothing is done to a name of the root scope but by the events that mean it there. -/
theorem Runs.stays (h : Runs base es s t) (hs : Since base s) (hp : s.Proper) (hw : s.Within inner)
    (hn : .defines name ∉ ScopeEvent.atRoot inner es) :
    Stays base name (.assigns name ∈ ScopeEvent.atRoot inner es) s t := by
  induction h generalizing inner with
  | refl => exact .refl ..
  | quiet revised _ ih =>
    have first : Stays base name False _ _ := revised.stays fun _ _ _ => False.elim
    have hw' := hw
    rw [Within, ← revised.inner] at hw'
    have rest := ih (hs.congr revised.size revised.inner) (hp.congr revised.root revised.size) hw' hn
    exact (first.trans rest).mono fun h => h.resolve_left id
  | step does _ ih =>
    rw [ScopeEvent.atRoot, List.mem_append, not_or] at hn
    have first : Stays base name _ _ _ := does.stays hs hp hw fun reaches e => by
      rw [if_pos reaches, e] at hn
      exact hn.1 (List.mem_singleton_self _)
    have rest := ih (does.since hs) (does.proper hp) (does.within hw) hn.2
    refine (first.trans rest).mono fun h => ?_
    rw [ScopeEvent.atRoot, List.mem_append]
    refine h.imp_left fun assigned => ?_
    rw [if_pos assigned.1, assigned.2]
    exact List.mem_singleton_self _

end Scopes

end Sigil
