import Mathlib.Data.List.Nodup
import Mathlib.Data.List.Pairwise
import Mathlib.Data.List.Perm.Basic
import Mathlib.Tactic.SplitIfs
import Sigil.Node
import Sigil.Typing.Scope

/-!
# What the names in a tree mean

Going through a tree from end to end, in the order in which it is checked,
gives a list of what it does with names (`Node.nameEvents`). What a name means
is a matter of what came before: of the scopes that are still open the
innermost one that has the name says it, and there the latest definition does
(`NameHistory.resolve`). So is whether a definition was used
(`NameHistory.uses`): by a reference to it anywhere, or by the word of a
command, if what was defined then had a type that may be a function's
(`NameHistory.typeOf`). A history is kept with the latest event first.

What a tree opens it closes again (`paired_nameEvents`), so that nothing that
was defined in a scope is used once the scope has ended (`uses_after_ended`).
The definitions that are found unused when their scopes end are for this reason
those that are used nowhere in the tree, unless a later definition of the name
in the same scope has taken the place of theirs (`mem_unused`).
-/

namespace Sigil

namespace Names

variable {α : Type} {t : Names α} {name : String}

theorem nodup_insert (h : t.keys.Nodup) (name : String) (a : α) : (t.insert name a).keys.Nodup := by
  rw [keys_insert]
  split_ifs with there
  · exact h
  · apply List.nodup_append.mpr
    refine ⟨h, List.nodup_singleton name, ?_⟩
    intro other ho _ hn e
    rw [List.mem_singleton.mp hn] at e
    exact there (e ▸ ho)

/-- A table says of a name once what it stands for. -/
theorem mem_iff_get? (h : t.keys.Nodup) {a : α} : (name, a) ∈ t ↔ t.get? name = some a := by
  induction t with
  | nil => simp
  | cons p t ih =>
    obtain ⟨n, b⟩ := p
    obtain ⟨new, rest⟩ := List.nodup_cons.mp h
    rw [List.mem_cons, Prod.mk.injEq, get?]
    split_ifs with e
    · subst e
      have absent : (n, a) ∉ t := fun there =>
        new (List.mem_map.mpr ⟨(n, a), there, rfl⟩)
      simp [absent, eq_comm]
    · rw [← ih rest]
      simp [Ne.symm e]

end Names

/-! ## Events -/

/-- A definition of a name, by the node at a place of the tree. -/
structure Definition where
  place : Nat
  kind : BindingKind
  name : String
  declared : Option Ty
  span : Option Span
deriving DecidableEq

/-- Something that a tree does with names. -/
inductive NameEvent where
  | opens
  | closes
  | defines (d : Definition)
  | refers (name : String)
  /-- An assignment of the value at a place. -/
  | assigns (name : String) (value : Nat)
  /-- A command, when its arguments are done with; its word was looked up so many events before. -/
  | commands (word : String) (since : Nat)
deriving DecidableEq

/-- Events in a scope of their own. -/
def NameEvent.enclose (es : List NameEvent) : List NameEvent :=
  opens :: (es ++ [closes])

theorem NameEvent.reverse_enclose (es past : List NameEvent) :
    (enclose es).reverse ++ past = closes :: (es.reverse ++ opens :: past) := by
  simp [enclose]

namespace Node

/-- The definitions that the parameters of a function make, the first one at a place. -/
def parameterDefinitions (place : Nat) : List Param → List Definition
  | [] => []
  | p :: ps => ⟨place, .param, p.name, p.declared, p.span⟩ :: parameterDefinitions (place + 1) ps

/-- What a command does with names. The name of one whose environment is changed means nothing. -/
def commandEvents (alone : Bool) (word : String) (args : List NameEvent) : List NameEvent :=
  args ++ if alone then [.commands word args.length] else []

mutual

/-- What a node does with names, from end to end. The nodes below it have the places after its
own, in the order of `walk`. -/
def nameEvents (place : Nat) : Node → List NameEvent
  | literal .. | parameter _ | blank _ | ret _ none => []
  | reference _ name _ => [.refers name]
  | substitution _ body | block _ body => NameEvent.enclose (nameEventsAll (place + 1) body)
  | interpolation _ parts => nameEventsParts (place + 1) parts
  | binding (.mk _ _ value) => nameEvents (place + 1) value
  | command _ env name args =>
    nameEventsBindings (place + 1) env ++
      commandEvents env.isEmpty name
        (nameEventsAll (place + 1 + (walkBindings env).length) args)
  | call _ callee args =>
    nameEvents (place + 1) callee ++ nameEventsAll (place + 1 + callee.walk.length) args
  | conditional _ condition thenBranch none =>
    nameEvents (place + 1) condition ++ nameEvents (place + 1 + condition.walk.length) thenBranch
  | conditional _ condition thenBranch (some elseBranch) =>
    nameEvents (place + 1) condition ++
      (nameEvents (place + 1 + condition.walk.length) thenBranch ++
        nameEvents (place + 1 + condition.walk.length + thenBranch.walk.length) elseBranch)
  | function span name params _ _ body =>
    (name.toList.map fun name => .defines ⟨place, .function, name, none, span⟩) ++
      NameEvent.enclose ((parameterDefinitions (place + 1) params).map .defines ++
        NameEvent.enclose (nameEventsAll (place + 1 + params.length + 1) body))
  | binary _ _ left right =>
    nameEvents (place + 1) left ++ nameEvents (place + 1 + left.walk.length) right
  | unary _ _ operand => nameEvents (place + 1) operand
  | ret _ (some value) => nameEvents (place + 1) value
  | define span name declared value =>
    nameEvents (place + 1) value ++ [.defines ⟨place, .define, name, declared, span⟩]
  | assign _ name value => nameEvents (place + 1) value ++ [.assigns name (place + 1)]
  | program _ body => nameEventsAll (place + 1) body

@[inherit_doc nameEvents]
def nameEventsAll (place : Nat) : List Node → List NameEvent
  | [] => []
  | n :: ns => nameEvents place n ++ nameEventsAll (place + n.walk.length) ns

@[inherit_doc nameEvents]
def nameEventsBindings (place : Nat) : List EnvBinding → List NameEvent
  | [] => []
  | .mk _ _ value :: bs =>
    nameEvents (place + 1) value ++ nameEventsBindings (place + (value.walk.length + 1)) bs

@[inherit_doc nameEvents]
def nameEventsParts (place : Nat) : List Part → List NameEvent
  | [] => []
  | .text _ :: ps => nameEventsParts place ps
  | .node n :: ps => nameEvents place n ++ nameEventsParts (place + n.walk.length) ps

end

end Node

/-! ## Histories -/

/-- The definitions in the scopes that are open within the root, the innermost scope first, and in
the root scope; in every scope the latest definition first. -/
structure OpenScopes where
  inner : List (List Definition)
  root : List Definition

namespace OpenScopes

/-- What a name means. -/
def resolve (o : OpenScopes) (name : String) : Option Definition :=
  (o.inner ++ [o.root]).findSome? fun s => s.find? (·.name = name)

/-- The scopes with definitions in the innermost one. -/
def add (o : OpenScopes) (ds : List Definition) : OpenScopes :=
  match o.inner with
  | [] => { o with root := ds ++ o.root }
  | top :: outer => { o with inner := (ds ++ top) :: outer }

/-- The scopes after an event. -/
def next (o : OpenScopes) : NameEvent → OpenScopes
  | .opens => { o with inner := [] :: o.inner }
  | .closes => { o with inner := o.inner.tail }
  | .defines d => o.add [d]
  | _ => o

/-- All definitions in open scopes. -/
def all (o : OpenScopes) : List Definition :=
  o.inner.flatten ++ o.root

end OpenScopes

/-- Events, the latest one first. -/
abbrev NameHistory := List NameEvent

namespace NameHistory

/-- The scopes that are open after some events. -/
def opened : NameHistory → OpenScopes
  | [] => ⟨[], []⟩
  | e :: past => (opened past).next e

/-- What a name means after some events. -/
def resolve (past : NameHistory) (name : String) : Option Definition :=
  (opened past).resolve name

/-- The definitions made so far. -/
def made (es : List NameEvent) : List Definition :=
  es.filterMap fun
    | .defines d => some d
    | _ => none

/-- The type of what was defined, after some events: what is declared for it, or else what the value
has in common with all that was assigned to it. The types of the nodes are given by their places. -/
def typeOf (types : Nat → Ty) (d : Definition) : NameHistory → Ty
  | [] => .unknown
  | .defines e :: past =>
    if e = d then d.declared.getD (types (d.place + 1)) else typeOf types d past
  | .assigns name value :: past =>
    if d.declared = none ∧ resolve past name = some d then
      Ty.join [typeOf types d past, types value]
    else typeOf types d past
  | _ :: past => typeOf types d past

/-- Whether the word of a command that means something of a type may mean a function. -/
def mayCall : Ty → Bool
  | .fn .. => true
  | t => t.isDynamic

/-- Whether a definition was used by some events. -/
def uses (types : Nat → Ty) (d : Definition) : NameHistory → Bool
  | [] => false
  | .refers name :: past => uses types d past || resolve past name = some d
  | .commands word since :: past =>
    uses types d past ||
      (resolve (past.drop since) word = some d && mayCall (typeOf types d past))
  | _ :: past => uses types d past

/-- The scopes that have ended, each with its definitions. -/
def ended : NameHistory → List (List Definition)
  | [] => []
  | .closes :: past => ended past ++ [(opened past).inner.head?.getD []]
  | _ :: past => ended past

/-- Whether it is found of a definition, when its scope ends, that it was not used. -/
def isUnused (types : Nat → Ty) (past : NameHistory) (d : Definition) : Bool :=
  d.kind = .define && !uses types d past && d.name.toList.head? ≠ some '_'

theorem isUnused_iff {types : Nat → Ty} {past : NameHistory} {d : Definition} :
    isUnused types past d ↔
      d.kind = .define ∧ uses types d past = false ∧ d.name.toList.head? ≠ some '_' := by
  rw [isUnused, Bool.and_eq_true, Bool.and_eq_true, decide_eq_true_iff, decide_eq_true_iff,
    Bool.not_eq_true', and_assoc]

/-- What the names of a scope mean when it ends, in the order in which they were first defined. -/
def lasting (s : List Definition) : Names Definition :=
  s.foldr (fun d t => t.insert d.name d) []

/-- The definitions that were found unused when their scopes ended. -/
def unused (types : Nat → Ty) : NameHistory → List Definition
  | [] => []
  | .closes :: past => unused types past ++
    ((lasting ((opened past).inner.head?.getD [])).map (·.2)).filter (isUnused types past)
  | _ :: past => unused types past

/-! ### Scopes -/

theorem get?_lasting (s : List Definition) (name : String) :
    (lasting s).get? name = s.find? (·.name = name) := by
  induction s with
  | nil => rfl
  | cons d s ih =>
    rw [lasting, List.foldr_cons, Names.get?_insert, List.find?_cons]
    split_ifs with h
    · simp [h]
    · simp only [h, decide_false]
      exact ih

theorem nodup_lasting (s : List Definition) : (lasting s).keys.Nodup := by
  induction s with
  | nil => exact List.nodup_nil
  | cons d s ih => exact Names.nodup_insert ih d.name d

/-- What lasts in a scope are the definitions that no later one has taken the place of. -/
theorem mem_lasting {s : List Definition} {d : Definition} :
    d ∈ (lasting s).map (·.2) ↔ s.find? (·.name = d.name) = some d := by
  rw [← get?_lasting, ← Names.mem_iff_get? (nodup_lasting s)]
  constructor
  · intro h
    obtain ⟨⟨name, _⟩, there, rfl⟩ := List.mem_map.mp h
    have found := List.find?_some ((get?_lasting s name).symm.trans
      ((Names.mem_iff_get? (nodup_lasting s)).mp there))
    rwa [of_decide_eq_true found]
  · intro h
    exact List.mem_map.mpr ⟨_, h, rfl⟩

theorem lasting_name {s : List Definition} {e : String × Definition} (h : e ∈ lasting s) :
    e.2.name = e.1 := by
  have found := List.find?_some ((get?_lasting s e.1).symm.trans
    ((Names.mem_iff_get? (nodup_lasting s)).mp h))
  exact of_decide_eq_true found

/-! ### Definitions and where they are -/

theorem made_append (es fs : List NameEvent) : made (es ++ fs) = made es ++ made fs :=
  List.filterMap_append

end NameHistory

namespace OpenScopes

variable {o : OpenScopes} {ds es : List Definition} {d : Definition} {name : String}

theorem mem_all_of_resolve (h : o.resolve name = some d) : d ∈ o.all := by
  obtain ⟨s, hs, found⟩ := List.exists_of_findSome?_eq_some h
  have there := List.mem_of_find?_eq_some found
  rcases List.mem_append.mp hs with hs | hs
  · exact List.mem_append_left _ (List.mem_flatten.mpr ⟨s, hs, there⟩)
  · exact List.mem_append_right _ (List.mem_singleton.mp hs ▸ there)

theorem mem_all_of_head (h : d ∈ o.inner.head?.getD []) : d ∈ o.all := by
  obtain ⟨_ | ⟨top, outer⟩, root⟩ := o
  · cases h
  · exact List.mem_append_left root (List.mem_append_left _ h)

theorem add_add : (o.add ds).add es = o.add (es ++ ds) := by
  obtain ⟨_ | ⟨top, outer⟩, root⟩ := o <;> simp [add]

theorem add_nil : o.add [] = o := by
  obtain ⟨_ | ⟨top, outer⟩, root⟩ := o <;> rfl

theorem subset_add : o.all ⊆ (o.add ds).all := by
  intro d hd
  obtain ⟨_ | ⟨top, outer⟩, root⟩ := o
  · exact List.mem_append_right ds hd
  · rw [add, all, List.flatten_cons, List.append_assoc, List.append_assoc]
    rw [all, List.flatten_cons, List.append_assoc] at hd
    exact List.mem_append_right ds hd

end OpenScopes

namespace NameHistory

/-- Every definition is in a scope that is open, or in one that has ended. -/
theorem perm_made (past : NameHistory) :
    (made past).Perm ((opened past).all ++ (ended past).flatten) := by
  induction past with
  | nil => exact .refl _
  | cons e past ih =>
    rw [opened]
    cases e with
    | opens | refers | assigns | commands => exact ih
    | defines d =>
      refine (List.Perm.cons d ih).trans ?_
      rcases opened past with ⟨_ | ⟨top, outer⟩, root⟩
      · exact .refl _
      · exact .refl _
    | closes =>
      refine ih.trans ?_
      rw [ended]
      rcases opened past with ⟨_ | ⟨top, outer⟩, root⟩
      · simp [OpenScopes.all, OpenScopes.next]
      · simp only [OpenScopes.all, OpenScopes.next, List.flatten_cons, List.tail_cons,
          List.head?_cons, Option.getD_some, List.flatten_append, List.flatten_nil,
          List.append_nil, List.append_assoc]
        refine List.perm_append_comm.trans ?_
        simp

/-- Nothing that an open scope holds is in one that has ended. -/
theorem not_mem_all_of_ended {past : NameHistory} (distinct : (made past).Nodup)
    {s : List Definition} (hs : s ∈ ended past) {d : Definition} (hd : d ∈ s) :
    d ∉ (opened past).all := fun there =>
  (List.nodup_append.mp ((perm_made past).nodup_iff.mp distinct)).2.2 d there d
    (List.mem_flatten.mpr ⟨s, hs, hd⟩) rfl

/-- No definition is in two scopes that have ended. -/
theorem ended_unique {past : NameHistory} (distinct : (made past).Nodup) {s t : List Definition}
    (hs : s ∈ ended past) (ht : t ∈ ended past) {d : Definition} (ds : d ∈ s) (dt : d ∈ t) :
    s = t := by
  have apart := (List.nodup_flatten.mp
    (List.nodup_append.mp ((perm_made past).nodup_iff.mp distinct)).2.1).2
  by_contra other
  have : Std.Symm (@List.Disjoint Definition) := ⟨fun _ _ h _ ha hb => h hb ha⟩
  exact apart.forall hs ht other ds dt

theorem mem_made_of_opened {past : NameHistory} {d : Definition} (h : d ∈ (opened past).all) :
    d ∈ made past :=
  (perm_made past).mem_iff.mpr (List.mem_append_left _ h)

/-- What is used was defined before. -/
theorem mem_made_of_uses {types : Nat → Ty} {d : Definition} {past : NameHistory}
    (h : uses types d past) : d ∈ made past := by
  induction past with
  | nil => cases h
  | cons e past ih =>
    cases e with
    | opens | closes | assigns => exact ih h
    | defines e => exact List.mem_cons_of_mem e (ih h)
    | refers name =>
      rw [uses, Bool.or_eq_true, decide_eq_true_iff] at h
      exact h.elim ih fun here => mem_made_of_opened (OpenScopes.mem_all_of_resolve here)
    | commands word since =>
      rw [uses, Bool.or_eq_true, Bool.and_eq_true, decide_eq_true_iff] at h
      refine h.elim ih fun here => ?_
      have before := mem_made_of_opened (OpenScopes.mem_all_of_resolve here.1)
      exact ((List.drop_sublist since past).filterMap _).mem before

/-! ### The events of a tree -/

/-- Events of which every scope that is opened is closed again, and of which a command looks its
word up right before what belongs to its arguments. -/
inductive Paired : List NameEvent → Prop
  | nil : Paired []
  | append {es fs : List NameEvent} : Paired es → Paired fs → Paired (es ++ fs)
  | defines (d : Definition) : Paired [.defines d]
  | refers (name : String) : Paired [.refers name]
  | assigns (name : String) (value : Nat) : Paired [.assigns name value]
  | scope {es : List NameEvent} : Paired es → Paired (NameEvent.enclose es)
  | command {es : List NameEvent} (word : String) :
    Paired es → Paired (es ++ [.commands word es.length])

/-- Commands find their words again: what was in a scope when a word was looked up still is. -/
def Steady : NameHistory → Prop
  | [] => True
  | .commands _ since :: past => Steady past ∧ (opened (past.drop since)).all ⊆ (opened past).all
  | _ :: past => Steady past

variable {es : List NameEvent} {past : NameHistory}

/-- Events that are paired do no more to the scopes around them than to add to the innermost. -/
theorem Paired.opened (h : Paired es) (past : NameHistory) :
    ∃ ds, opened (es.reverse ++ past) = (NameHistory.opened past).add ds := by
  induction h generalizing past with
  | nil => exact ⟨[], OpenScopes.add_nil.symm⟩
  | append _ _ ihe ihf =>
    obtain ⟨ds, hd⟩ := ihe past
    obtain ⟨fs, hf⟩ := ihf (_ ++ past)
    exact ⟨fs ++ ds, by rw [List.reverse_append, List.append_assoc, hf, hd, OpenScopes.add_add]⟩
  | defines d => exact ⟨[d], rfl⟩
  | refers | assigns => exact ⟨[], OpenScopes.add_nil.symm⟩
  | @scope es _ ih =>
    obtain ⟨ds, hd⟩ := ih (.opens :: past)
    refine ⟨[], ?_⟩
    rw [NameEvent.reverse_enclose, NameHistory.opened, hd, OpenScopes.add_nil]
    rfl
  | @command es word _ ih =>
    obtain ⟨ds, hd⟩ := ih past
    exact ⟨ds, by rw [List.reverse_append]; exact hd⟩

theorem Paired.steady (h : Paired es) (past : NameHistory) (hp : Steady past) :
    Steady (es.reverse ++ past) := by
  induction h generalizing past with
  | nil | defines | refers | assigns => exact hp
  | append _ _ ihe ihf =>
    rw [List.reverse_append, List.append_assoc]
    exact ihf _ (ihe past hp)
  | @scope es _ ih =>
    rw [NameEvent.reverse_enclose]
    exact ih (.opens :: past) hp
  | @command es word paired ih =>
    rw [List.reverse_append]
    refine ⟨ih past hp, ?_⟩
    have before : (es.reverse ++ past).drop es.length = past := by
      rw [← List.length_reverse, List.drop_left]
    obtain ⟨ds, hd⟩ := paired.opened past
    show (NameHistory.opened ((es.reverse ++ past).drop es.length)).all ⊆
      (NameHistory.opened (es.reverse ++ past)).all
    rw [before, hd]
    exact OpenScopes.subset_add

end NameHistory

namespace Node

open NameHistory

theorem paired_map_defines (ds : List Definition) : Paired (ds.map .defines) := by
  induction ds with
  | nil => exact .nil
  | cons d ds ih => exact (Paired.defines d).append ih

theorem paired_commandEvents (alone : Bool) (word : String) {args : List NameEvent}
    (h : Paired args) : Paired (commandEvents alone word args) := by
  unfold commandEvents
  split_ifs
  · exact h.command word
  · exact h.append .nil

mutual

/-- What a tree opens it closes again. -/
theorem paired_nameEvents (place : Nat) (n : Node) : Paired (n.nameEvents place) := by
  cases n with
  | literal | parameter | blank => exact .nil
  | reference _ name => exact .refers name
  | substitution _ body | block _ body => exact (paired_nameEventsAll _ body).scope
  | interpolation _ parts => exact paired_nameEventsParts _ parts
  | binding b =>
    obtain ⟨_, _, value⟩ := b
    exact paired_nameEvents _ value
  | command _ env name args =>
    exact (paired_nameEventsBindings _ env).append
      (paired_commandEvents _ name (paired_nameEventsAll _ args))
  | call _ callee args => exact (paired_nameEvents _ callee).append (paired_nameEventsAll _ args)
  | conditional _ condition thenBranch elseBranch =>
    cases elseBranch with
    | none => exact (paired_nameEvents _ condition).append (paired_nameEvents _ thenBranch)
    | some elseBranch =>
      exact (paired_nameEvents _ condition).append
        ((paired_nameEvents _ thenBranch).append (paired_nameEvents _ elseBranch))
  | function _ name params _ _ body =>
    have within := (paired_map_defines (parameterDefinitions (place + 1) params)).append
      (paired_nameEventsAll (place + 1 + params.length + 1) body).scope
    cases name with
    | none => exact within.scope
    | some name => exact (Paired.defines _).append within.scope
  | binary _ _ left right => exact (paired_nameEvents _ left).append (paired_nameEvents _ right)
  | unary _ _ operand => exact paired_nameEvents _ operand
  | ret _ value =>
    cases value with
    | none => exact .nil
    | some value => exact paired_nameEvents _ value
  | define _ _ _ value => exact (paired_nameEvents _ value).append (.defines _)
  | assign _ name value => exact (paired_nameEvents _ value).append (.assigns name _)
  | program _ body => exact paired_nameEventsAll _ body

theorem paired_nameEventsAll (place : Nat) : ∀ ns : List Node, Paired (nameEventsAll place ns)
  | [] => .nil
  | n :: ns => (paired_nameEvents place n).append (paired_nameEventsAll _ ns)

theorem paired_nameEventsBindings (place : Nat) :
    ∀ bs : List EnvBinding, Paired (nameEventsBindings place bs)
  | [] => .nil
  | .mk _ _ value :: bs => (paired_nameEvents _ value).append (paired_nameEventsBindings _ bs)

theorem paired_nameEventsParts (place : Nat) : ∀ ps : List Part, Paired (nameEventsParts place ps)
  | [] => .nil
  | .text _ :: ps => paired_nameEventsParts place ps
  | .node n :: ps => (paired_nameEvents place n).append (paired_nameEventsParts _ ps)

end

end Node

namespace NameHistory

variable {types : Nat → Ty} {past : NameHistory} {e : NameEvent} {d : Definition}

/-! ### Definitions that are not used -/

/-- Nothing that was defined in a scope is used after the scope has ended. -/
theorem uses_after_ended (steady : Steady (e :: past)) (distinct : (made past).Nodup)
    {s : List Definition} (hs : s ∈ ended past) (hd : d ∈ s) :
    uses types d (e :: past) = uses types d past := by
  have gone := not_mem_all_of_ended distinct hs hd
  cases e with
  | opens | closes | defines | assigns => rfl
  | refers name =>
    have elsewhere : resolve past name ≠ some d := fun h => gone (OpenScopes.mem_all_of_resolve h)
    simp [uses, elsewhere]
  | commands word since =>
    have elsewhere : resolve (past.drop since) word ≠ some d := fun h =>
      gone (steady.2 (OpenScopes.mem_all_of_resolve h))
    simp [uses, elsewhere]

theorem Steady.before (h : Steady (e :: past)) : Steady past := by
  cases e with
  | commands => exact h.1
  | opens | closes | defines | refers | assigns => exact h

theorem nodup_past (h : (made (e :: past)).Nodup) : (made past).Nodup :=
  ((List.sublist_cons_self e past).filterMap _).nodup h

theorem isUnused_after_ended (steady : Steady (e :: past)) (distinct : (made past).Nodup)
    {s : List Definition} (hs : s ∈ ended past) (hd : d ∈ s) :
    isUnused types (e :: past) d = isUnused types past d := by
  rw [isUnused, uses_after_ended steady distinct hs hd, isUnused]

/-- A definition is found unused when its scope ends if it is used nowhere, unless another
definition has taken its place. -/
theorem mem_unused (steady : Steady past) (distinct : (made past).Nodup) :
    d ∈ unused types past ↔
      (∃ s ∈ ended past, s.find? (·.name = d.name) = some d) ∧ isUnused types past d := by
  induction past with
  | nil => simp [unused, ended]
  | cons e past ih =>
    -- What was defined in a scope that has ended is not used any more.
    have later {s : List Definition} (hs : s ∈ ended past)
        (found : s.find? (·.name = d.name) = some d) :
        isUnused types (e :: past) d = isUnused types past d :=
      isUnused_after_ended steady (nodup_past distinct) hs (List.mem_of_find?_eq_some found)
    have before : d ∈ unused types past ↔
        (∃ s ∈ ended past, s.find? (·.name = d.name) = some d) ∧
          isUnused types (e :: past) d := by
      rw [ih steady.before (nodup_past distinct)]
      refine and_congr_right fun ⟨s, hs, found⟩ => ?_
      rw [later hs found]
    cases e with
    | opens | defines | refers | assigns | commands => exact before
    | closes =>
      rw [unused, List.mem_append, before, List.mem_filter, mem_lasting, ended]
      simp only [List.mem_append, List.mem_singleton]
      constructor
      · rintro (⟨⟨s, hs, found⟩, free⟩ | ⟨found, free⟩)
        · exact ⟨⟨s, .inl hs, found⟩, free⟩
        · exact ⟨⟨_, .inr rfl, found⟩, free⟩
      · rintro ⟨⟨s, hs | rfl, found⟩, free⟩
        · exact .inl ⟨⟨s, hs, found⟩, free⟩
        · exact .inr ⟨found, free⟩

theorem nodup_lasting_map (s : List Definition) : ((lasting s).map (·.2)).Nodup := by
  apply List.Nodup.of_map (·.name)
  have names : ((lasting s).map (·.2)).map (·.name) = (lasting s).keys := by
    rw [List.map_map]
    exact List.map_congr_left fun e he => lasting_name he
  rw [names]
  exact nodup_lasting s

/-- No definition is found unused twice. -/
theorem nodup_unused (steady : Steady past) (distinct : (made past).Nodup) :
    (unused types past).Nodup := by
  induction past with
  | nil => exact List.nodup_nil
  | cons e past ih =>
    have before := ih steady.before (nodup_past distinct)
    cases e with
    | opens | defines | refers | assigns | commands => exact before
    | closes =>
      refine List.nodup_append.mpr ⟨before, (nodup_lasting_map _).filter _, ?_⟩
      rintro d hd _ here rfl
      obtain ⟨⟨s, hs, found⟩, -⟩ := (mem_unused steady.before (nodup_past distinct)).mp hd
      refine not_mem_all_of_ended (nodup_past distinct) hs (List.mem_of_find?_eq_some found) ?_
      have last := mem_lasting.mp (List.mem_of_mem_filter here)
      exact OpenScopes.mem_all_of_head (List.mem_of_find?_eq_some last)

end NameHistory

/-! ## Definitions and nodes -/

namespace NameHistory

theorem made_map_defines (ds : List Definition) : made (ds.map .defines) = ds := by
  induction ds with
  | nil => rfl
  | cons d ds ih => exact congrArg (d :: ·) ih

theorem made_enclose (es : List NameEvent) : made (NameEvent.enclose es) = made es := by
  have run : NameEvent.enclose es = [.opens] ++ (es ++ [.closes]) := rfl
  rw [run, made_append, made_append]
  exact List.append_nil _

theorem made_commandEvents (alone : Bool) (word : String) (args : List NameEvent) :
    made (Node.commandEvents alone word args) = made args := by
  rw [Node.commandEvents, made_append]
  split_ifs <;> exact List.append_nil _

theorem made_reverse (es : List NameEvent) : made es.reverse = (made es).reverse :=
  List.filterMap_reverse

end NameHistory

namespace Node

/-- The definition that a node at a place makes if it is a `let`. -/
def letAt (place : Nat) : Node → Option Definition
  | define span name declared _ => some ⟨place, .define, name, declared, span⟩
  | _ => none

/-- The definitions that nodes make which are a `let`, the first node at a place. -/
def lets (place : Nat) : List Node → List Definition
  | [] => []
  | n :: ns => (n.letAt place).toList ++ lets (place + 1) ns

theorem lets_append (place : Nat) (ns ms : List Node) :
    lets place (ns ++ ms) = lets place ns ++ lets (place + ns.length) ms := by
  induction ns generalizing place with
  | nil => rfl
  | cons n ns ih =>
    have next : place + 1 + ns.length = place + (n :: ns).length := by
      rw [List.length_cons]
      omega
    rw [List.cons_append, lets, ih, lets, next, List.append_assoc]

/-- Nodes make definitions, the first node at a place: each definition has a place of its own among
theirs, and those by a `let` are the ones that the nodes make which are a `let`. -/
structure Makes (place : Nat) (ns : List Node) (ds : List Definition) : Prop where
  distinct : (ds.map (·.place)).Nodup
  within : ∀ d ∈ ds, place ≤ d.place ∧ d.place < place + ns.length
  lets : (ds.filter (·.kind = .define)).Perm (lets place ns)

variable {place : Nat} {n : Node} {ns ms : List Node} {ds es : List Definition}

theorem makes_nil : Makes place [] [] :=
  ⟨List.nodup_nil, fun _ h => (List.not_mem_nil h).elim, .refl _⟩

theorem Makes.append (h : Makes place ns ds) (k : Makes (place + ns.length) ms es) :
    Makes place (ns ++ ms) (ds ++ es) where
  distinct := by
    rw [List.map_append]
    refine List.nodup_append.mpr ⟨h.distinct, k.distinct, fun i hi j hj e => ?_⟩
    obtain ⟨d, hd, rfl⟩ := List.mem_map.mp hi
    obtain ⟨f, hf, rfl⟩ := List.mem_map.mp hj
    have := (h.within d hd).2
    have := (k.within f hf).1
    omega
  within d hd := by
    rw [List.length_append]
    rcases List.mem_append.mp hd with hd | hd
    · have := h.within d hd
      omega
    · have := k.within d hd
      omega
  lets := by
    rw [List.filter_append, lets_append]
    exact h.lets.append k.lets

theorem Makes.perm (h : Makes place ns ds) (k : ds.Perm es) : Makes place ns es :=
  ⟨(k.map _).nodup_iff.mp h.distinct, fun d hd => h.within d (k.mem_iff.mpr hd),
    (k.symm.filter _).trans h.lets⟩

/-- A node that makes no definition of its own. -/
theorem Makes.below (h : Makes (place + 1) ns ds) (here : n.letAt place = none := by rfl) :
    Makes place (n :: ns) ds where
  distinct := h.distinct
  within d hd := by
    have := h.within d hd
    rw [List.length_cons]
    omega
  lets := by
    rw [Node.lets, here]
    exact h.lets

/-- A node that makes a definition. -/
theorem Makes.cons (h : Makes (place + 1) ns ds) {d : Definition} (hd : d.place = place)
    (here : [d].filter (·.kind = .define) = (n.letAt place).toList) :
    Makes place (n :: ns) (d :: ds) where
  distinct := by
    refine List.nodup_cons.mpr ⟨fun there => ?_, h.distinct⟩
    obtain ⟨e, he, same⟩ := List.mem_map.mp there
    have later := (h.within e he).1
    rw [show e.place = place from same.trans hd] at later
    exact absurd later (Nat.not_succ_le_self place)
  within e he := by
    rw [List.length_cons]
    rcases List.mem_cons.mp he with rfl | he
    · omega
    · have := h.within e he
      omega
  lets := by
    have split : d :: ds = [d] ++ ds := rfl
    rw [split, List.filter_append, here, Node.lets]
    exact h.lets.append_left _

open NameHistory

theorem makes_parameters (ps : List Param) (place : Nat) :
    Makes place (ps.map .parameter) (parameterDefinitions place ps) := by
  induction ps generalizing place with
  | nil => exact makes_nil
  | cons p ps ih => exact (ih (place + 1)).cons rfl rfl

mutual

theorem makes_nameEvents (place : Nat) (n : Node) :
    Makes place n.walk (made (n.nameEvents place)) := by
  cases n with
  | literal | reference | parameter | blank => exact makes_nil.below
  | substitution _ body | block _ body =>
    rw [nameEvents, made_enclose]
    exact (makes_nameEventsAll (place + 1) body).below
  | interpolation _ parts => exact (makes_nameEventsParts (place + 1) parts).below
  | binding b =>
    obtain ⟨_, _, value⟩ := b
    exact (makes_nameEvents (place + 1) value).below
  | command _ env name args =>
    rw [nameEvents, made_append, made_commandEvents]
    exact ((makes_nameEventsBindings (place + 1) env).append (makes_nameEventsAll _ args)).below
  | call _ callee args =>
    rw [nameEvents, made_append]
    exact ((makes_nameEvents (place + 1) callee).append (makes_nameEventsAll _ args)).below
  | conditional _ condition thenBranch elseBranch =>
    cases elseBranch with
    | none =>
      rw [nameEvents, made_append]
      exact ((makes_nameEvents (place + 1) condition).append (makes_nameEvents _ thenBranch)).below
    | some elseBranch =>
      rw [nameEvents, made_append, made_append, walk, List.append_assoc]
      exact ((makes_nameEvents (place + 1) condition).append
        ((makes_nameEvents _ thenBranch).append (makes_nameEvents _ elseBranch))).below
  | function _ name params _ bodySpan body =>
    have inside : Makes (place + 1 + (params.map parameter).length)
        (block bodySpan body :: walkAll body)
        (made (nameEventsAll (place + 1 + params.length + 1) body)) := by
      rw [List.length_map]
      exact (makes_nameEventsAll _ body).below
    have within := (makes_parameters params (place + 1)).append inside
    rw [nameEvents, made_append, made_enclose, made_append, made_map_defines, made_enclose]
    cases name with
    | none => exact within.below
    | some name => exact within.cons rfl rfl
  | binary _ _ left right =>
    rw [nameEvents, made_append]
    exact ((makes_nameEvents (place + 1) left).append (makes_nameEvents _ right)).below
  | unary _ _ operand => exact (makes_nameEvents (place + 1) operand).below
  | ret _ value =>
    cases value with
    | none => exact makes_nil.below
    | some value => exact (makes_nameEvents (place + 1) value).below
  | define _ _ _ value =>
    rw [nameEvents, made_append]
    exact ((makes_nameEvents (place + 1) value).cons rfl rfl).perm
      (List.perm_append_singleton _ _).symm
  | assign _ name value =>
    rw [nameEvents, made_append]
    exact ((makes_nameEvents (place + 1) value).perm (.of_eq (List.append_nil _).symm)).below
  | program _ body => exact (makes_nameEventsAll (place + 1) body).below

theorem makes_nameEventsAll (place : Nat) :
    ∀ ns : List Node, Makes place (walkAll ns) (made (nameEventsAll place ns))
  | [] => makes_nil
  | n :: ns => by
    rw [nameEventsAll, made_append]
    exact (makes_nameEvents place n).append (makes_nameEventsAll _ ns)

theorem makes_nameEventsBindings (place : Nat) :
    ∀ bs : List EnvBinding, Makes place (walkBindings bs) (made (nameEventsBindings place bs))
  | [] => makes_nil
  | .mk _ _ value :: bs => by
    rw [nameEventsBindings, made_append]
    exact (makes_nameEvents (place + 1) value).below.append (makes_nameEventsBindings _ bs)

theorem makes_nameEventsParts (place : Nat) :
    ∀ ps : List Part, Makes place (walkParts ps) (made (nameEventsParts place ps))
  | [] => makes_nil
  | .text _ :: ps => makes_nameEventsParts place ps
  | .node n :: ps => by
    rw [nameEventsParts, made_append]
    exact (makes_nameEvents place n).append (makes_nameEventsParts _ ps)

end

/-! ## Whole trees -/

/-- What a tree has done to names when it is gone through, the latest event first. -/
def history (n : Node) : NameHistory :=
  (n.nameEvents 0).reverse

theorem steady_history (n : Node) : Steady n.history := by
  have run := (paired_nameEvents 0 n).steady [] trivial
  rwa [List.append_nil] at run

theorem nodup_made_history (n : Node) : (made n.history).Nodup := by
  rw [history, made_reverse, List.nodup_reverse]
  exact .of_map _ (makes_nameEvents 0 n).distinct

/-- In the end only the root scope is open. -/
theorem inner_history (n : Node) : (opened n.history).inner = [] := by
  obtain ⟨ds, hd⟩ := (paired_nameEvents 0 n).opened []
  rw [List.append_nil] at hd
  rw [history, hd]
  rfl

theorem mem_lets_iff {n : Node} {d : Definition} :
    d ∈ lets 0 n.walk ↔ d ∈ made n.history ∧ d.kind = .define := by
  rw [← (makes_nameEvents 0 n).lets.mem_iff, List.mem_filter, decide_eq_true_iff, history,
    made_reverse, List.mem_reverse]

/-- Every `let` is in the root scope, or in one scope that has ended. -/
theorem mem_root_or_ended {n : Node} {d : Definition} (h : d ∈ lets 0 n.walk) :
    d ∈ (opened n.history).root ∨ ∃ s ∈ ended n.history, d ∈ s := by
  have there := (perm_made n.history).mem_iff.mp (mem_lets_iff.mp h).1
  rw [OpenScopes.all, inner_history, List.flatten_nil, List.nil_append] at there
  exact (List.mem_append.mp there).imp_right List.mem_flatten.mp

end Node

end Sigil
