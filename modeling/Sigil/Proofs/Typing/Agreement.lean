import Mathlib.Data.List.Forall2
import Sigil.Proofs.Store.Frames
import Sigil.Proofs.Value.Typed

/-!
# Scopes and frames that agree

The scopes of the checker and the frames of the store at one point of a
script agree if they have the same names, every slot with the type that is
declared for its binding and a value of the binding's type
(`Store.Agrees`). What the checker and the evaluation do side by side keeps
it: opening and leaving a scope (`Agrees.push`, `Agrees.leave`), definitions
(`Agrees.define`) and assignments (`Agrees.assign`). Where one of two branches
is skipped, types only become wider (`Scopes.Widens`).
-/

namespace Sigil

namespace Scopes

variable {s t u : Scopes}

/-- Every binding is still there, with the same declared type; its type may have become wider. -/
def Widens (s t : Scopes) : Prop :=
  ∀ i b, s.binding? i = some b → ∃ c, t.binding? i = some c ∧ c.declared = b.declared ∧
    ∀ v : Value, v.Of b.type → v.Of c.type

theorem Widens.refl (s : Scopes) : s.Widens s := fun _ b h => ⟨b, h, rfl, fun _ hv => hv⟩

theorem Widens.trans (h : s.Widens t) (k : t.Widens u) : s.Widens u := fun i b hb => by
  obtain ⟨c, hc, declared, wider⟩ := h i b hb
  obtain ⟨d, hd, declared', wider'⟩ := k i c hc
  exact ⟨d, hd, declared'.trans declared, fun v hv => wider' v (wider v hv)⟩

theorem widens_define (s : Scopes) (name : String) (b : Binding) :
    s.Widens (s.define name b).2 := fun i c hc => by
  have made := (Array.getElem?_eq_some_iff.mp hc).1
  refine ⟨c, ?_, rfl, fun _ hv => hv⟩
  rw [binding?, table_define, Array.getElem?_push_lt made, ← Array.getElem?_eq_getElem made]
  exact hc

theorem widens_modify (s : Scopes) (i : Nat) {f : Binding → Binding}
    (hd : ∀ b, (f b).declared = b.declared) (ht : ∀ b (v : Value), v.Of b.type → v.Of (f b).type) :
    s.Widens (s.modify i f) := fun j b hb => by
  rw [binding?] at hb
  simp only [binding?, modify, Array.getElem?_modify, hb]
  split_ifs
  · exact ⟨f b, rfl, hd b, ht b⟩
  · exact ⟨b, rfl, rfl, fun _ hv => hv⟩

end Scopes

/-- A slot has the declared type of a binding and a value of its type, and may be given any value of
the declared type. -/
structure Slot.Holds (b : Binding) (slot : Slot) : Prop where
  declared : slot.declared = b.declared
  value : slot.value.Of b.type
  wide : ∀ d, b.declared = some d → ∀ v : Value, v.Of d → v.Of b.type

/-- A slot holds what the binding at a place of the table says. -/
def Slot.Agrees (s : Scopes) (i : Nat) (slot : Slot) : Prop :=
  ∃ b, s.binding? i = some b ∧ slot.Holds b

theorem Slot.Agrees.widen {s t : Scopes} {i : Nat} {slot : Slot} (h : slot.Agrees s i)
    (ht : s.Widens t) : slot.Agrees t i := by
  obtain ⟨b, hb, holds⟩ := h
  obtain ⟨c, hc, declared, wider⟩ := ht i b hb
  exact ⟨c, hc, holds.declared.trans declared.symm, wider _ holds.value,
    fun d hd v hv => wider v (holds.wide d (declared ▸ hd) v hv)⟩

namespace Store

variable {st : Store} {s t : Scopes} {f g : FrameId} {name : String}

/-- A frame has the names of a scope, and its slots agree with their bindings. -/
structure FrameAgrees (st : Store) (s : Scopes) (scope : Scope) (g : FrameId) : Prop where
  names : ∀ name, (scope.get? name).isSome = (st.slotIn? g name).isSome
  slots : ∀ name i slot, scope.get? name = some i → st.slotIn? g name = some slot →
    slot.Agrees s i

/-- The frames around a place agree with the open scopes. -/
structure Agrees (st : Store) (f : FrameId) (s : Scopes) : Prop where
  made : f < st.frames.size
  frames : List.Forall₂ (st.FrameAgrees s) s.all (st.chain f)

/-- What is in a frame still agrees when other frames were changed and types became wider. -/
theorem FrameAgrees.widen {scope : Scope} (h : st.FrameAgrees s scope g) (ht : s.Widens t)
    {other : Store} (hs : ∀ name, other.slotIn? g name = st.slotIn? g name) :
    other.FrameAgrees t scope g :=
  ⟨fun name => hs name ▸ h.names name,
    fun name i slot hi hslot => (h.slots name i slot hi (hs name ▸ hslot)).widen ht⟩

theorem widen_frames {scopes : List Scope} {gs : List FrameId} {other : Store}
    (h : List.Forall₂ (st.FrameAgrees s) scopes gs) (ht : s.Widens t)
    (hs : ∀ g ∈ gs, ∀ name, other.slotIn? g name = st.slotIn? g name) :
    List.Forall₂ (other.FrameAgrees t) scopes gs := by
  induction h with
  | nil => exact .nil
  | cons head _ ih =>
    exact .cons (head.widen ht (hs _ List.mem_cons_self))
      (ih fun g hg => hs g (List.mem_cons_of_mem _ hg))

/-- Scopes with the same names and wider types agree as well. -/
theorem Agrees.widen (h : st.Agrees f s) (ht : s.Widens t) (ha : t.all = s.all) :
    st.Agrees f t :=
  ⟨h.made, ha ▸ widen_frames h.frames ht fun _ _ _ => rfl⟩

/-! ## Scopes that are opened and left -/

/-- A new frame agrees with a new scope. -/
theorem Agrees.push (h : st.Agrees f s) :
    (st.push (some f)).2.Agrees st.frames.size s.enter := by
  refine ⟨by rw [size_push]; exact Nat.lt_succ_self _, ?_⟩
  have old : List.Forall₂ ((st.push (some f)).2.FrameAgrees s.enter) s.all (st.chain f) :=
    widen_frames h.frames (.refl s) fun _ _ name => slotIn?_push _ _ name
  have new : (st.push (some f)).2.FrameAgrees s.enter [] st.frames.size := by
    refine ⟨fun name => ?_, fun _ _ _ => nofun⟩
    have empty : st.slotIn? st.frames.size name = none := by
      cases hs : st.slotIn? st.frames.size name with
      | none => rfl
      | some slot => exact absurd (lt_of_slotIn? hs) (Nat.lt_irrefl _)
    rw [slotIn?_push, empty]
    rfl
  rw [chain_push_self h.made]
  exact .cons new old

/-- What is around a frame agrees with the scopes around its own. -/
theorem Agrees.leave (h : st.Agrees g s) (hc : st.chain g = g :: st.chain f)
    (hf : f < st.frames.size) : st.Agrees f s.leave := by
  refine ⟨hf, ?_⟩
  have frames := h.frames
  rw [hc] at frames
  obtain ⟨gs, hgs⟩ := chain_eq_cons st f
  cases hi : s.inner with
  | nil =>
    -- there are two frames at least, so there is a scope within the root
    rw [Scopes.all, hi, hgs] at frames
    cases frames with
    | cons _ rest => cases rest
  | cons top outer =>
    have left : s.all = top :: s.leave.all := by simp [Scopes.all, Scopes.leave, hi]
    rw [left] at frames
    cases frames with
    | cons _ rest => exact widen_frames rest (.refl s) fun _ _ _ => rfl

/-! ## Names -/

/-- A name means something among frames if it does among scopes that agree, and then the slot agrees
with the binding. -/
theorem find_cases {scopes : List Scope} {gs : List FrameId}
    (h : List.Forall₂ (st.FrameAgrees s) scopes gs) (name : String) :
    (scopes.findSome? (·.get? name) = none ∧
      gs.find? (fun g => (st.slotIn? g name).isSome) = none) ∨
    ∃ i g slot, scopes.findSome? (·.get? name) = some i ∧
      gs.find? (fun g => (st.slotIn? g name).isSome) = some g ∧ st.slotIn? g name = some slot ∧
      slot.Agrees s i := by
  induction h with
  | nil => exact .inl ⟨rfl, rfl⟩
  | @cons scope g scopes gs head tail ih =>
    have names := head.names name
    rw [List.findSome?_cons, List.find?_cons]
    cases hi : scope.get? name with
    | none =>
      rw [hi, Option.isSome_none] at names
      rw [← names]
      exact ih
    | some i =>
      rw [hi, Option.isSome_some] at names
      obtain ⟨slot, hslot⟩ := Option.isSome_iff_exists.mp names.symm
      rw [← names]
      exact .inr ⟨i, g, slot, rfl, rfl, hslot, head.slots name i slot hi hslot⟩

/-- What a name means in scopes and in frames that agree. -/
theorem Agrees.named_cases (h : st.Agrees f s) (name : String) :
    (s.named? name = none ∧ st.slot? f name = none) ∨
    ∃ i b g slot, s.resolve name = some i ∧ s.named? name = some (i, b) ∧
      st.find? f name = some g ∧ st.slotIn? g name = some slot ∧ st.slot? f name = some slot ∧
      s.binding? i = some b ∧ slot.Holds b := by
  rcases find_cases h.frames name with ⟨hn, hg⟩ | ⟨i, g, slot, hi, hg, hslot, b, hb, holds⟩
  · left
    have resolved : s.resolve name = none := hn
    have found : st.find? f name = none := hg
    exact ⟨by rw [Scopes.named?, resolved]; rfl, by rw [slot?, found]; rfl⟩
  · right
    have resolved : s.resolve name = some i := hi
    have found : st.find? f name = some g := hg
    refine ⟨i, b, g, slot, resolved, ?_, found, hslot, ?_, hb, holds⟩
    · rw [Scopes.named?, resolved, Option.bind_some, hb]
      rfl
    · rw [slot?, found, Option.bind_some, hslot]

/-! ## Definitions and assignments -/

/-- A definition in the innermost scope and in its frame. -/
theorem Agrees.define (h : st.Agrees f s) {b : Binding} {slot : Slot} (hb : slot.Holds b) :
    (st.define f name slot).Agrees f (s.define name b).2 := by
  refine ⟨by rw [size_define]; exact h.made, ?_⟩
  obtain ⟨top, outer, hs, hdefined⟩ := s.all_define name b
  obtain ⟨gs, hgs⟩ := chain_eq_cons st f
  have lower : ∀ g ∈ gs, g < f := by
    have sorted := st.pairwise_chain f
    rw [hgs] at sorted
    exact (List.pairwise_cons.mp sorted).1
  have wider := s.widens_define name b
  have bound : slot.Agrees (s.define name b).2 s.table.size :=
    ⟨b, by simp [Scopes.binding?, Scopes.table_define], hb⟩
  have frames := h.frames
  rw [hs, hgs] at frames
  rw [hdefined, chain_define, hgs]
  cases frames with
  | cons head tail =>
    have here (other : String) : (st.define f name slot).slotIn? f other =
        if name = other then some slot else st.slotIn? f other := by
      rw [slotIn?_define]
      by_cases e : name = other <;> simp [e, h.made]
    refine .cons ⟨fun other => ?_, fun other i found hi hfound => ?_⟩ ?_
    · rw [here, Names.get?_insert]
      split_ifs
      · rfl
      · exact head.names other
    · rw [here] at hfound
      rw [Names.get?_insert] at hi
      split_ifs at hi hfound
      · cases hi
        cases hfound
        exact bound
      · exact (head.slots other i found hi hfound).widen wider
    · refine widen_frames tail wider fun g hg other => ?_
      rw [slotIn?_define, if_neg fun e => Nat.ne_of_lt (lower g hg) e.1.symm]

/-- A name is given a value in the frame where it is found, and its binding a type for it. -/
theorem assign_frames {scopes : List Scope} {gs : List FrameId} {i : Nat} {slot : Slot} {v : Value}
    (h : List.Forall₂ (st.FrameAgrees s) scopes gs) (sorted : gs.Pairwise (· > ·))
    (hi : scopes.findSome? (·.get? name) = some i)
    (hg : gs.find? (fun g => (st.slotIn? g name).isSome) = some g)
    (hslot : st.slotIn? g name = some slot) (ht : s.Widens t)
    (hv : Slot.Agrees t i { slot with value := v }) :
    List.Forall₂ ((st.define g name { slot with value := v }).FrameAgrees t) scopes gs := by
  have made : g < st.frames.size := lt_of_slotIn? hslot
  induction h with
  | nil => cases hg
  | @cons scope k scopes gs head tail ih =>
    have names := head.names name
    rw [List.pairwise_cons] at sorted
    rw [List.findSome?_cons] at hi
    rw [List.find?_cons] at hg
    cases hk : scope.get? name with
    | none =>
      rw [hk, Option.isSome_none] at names
      rw [hk] at hi
      rw [← names] at hg
      have elsewhere : g ≠ k := by
        rintro rfl
        rw [hslot] at names
        cases names
      refine .cons (head.widen ht fun other => ?_) (ih sorted.2 hi hg)
      rw [slotIn?_define, if_neg fun e => elsewhere e.1]
    | some j =>
      rw [hk, Option.isSome_some] at names
      rw [hk] at hi
      rw [← names] at hg
      cases hi
      cases hg
      have here (other : String) : (st.define g name { slot with value := v }).slotIn? g other =
          if name = other then some { slot with value := v } else st.slotIn? g other := by
        rw [slotIn?_define]
        by_cases e : name = other <;> simp [e, made]
      refine .cons ⟨fun other => ?_, fun other i found hi hfound => ?_⟩ ?_
      · rw [here]
        split_ifs with e
        · subst e
          rw [hk]
          rfl
        · exact head.names other
      · rw [here] at hfound
        split_ifs at hfound with e
        · subst e
          cases hfound
          cases hk.symm.trans hi
          exact hv
        · exact (head.slots other i found hi hfound).widen ht
      · refine widen_frames tail ht fun k hk other => ?_
        rw [slotIn?_define, if_neg fun e => Nat.ne_of_gt (sorted.1 k hk) e.1]

/-- An assignment to a name that means something. -/
theorem Agrees.assign (h : st.Agrees f s) {i : Nat} {slot : Slot} {v : Value}
    (hi : s.resolve name = some i) (hg : st.find? f name = some g)
    (hslot : st.slotIn? g name = some slot) (ht : s.Widens t) (ha : t.all = s.all)
    (hv : Slot.Agrees t i { slot with value := v }) :
    (st.assign f name v).Agrees f t := by
  rw [assign_of_find? hg hslot]
  refine ⟨by rw [size_define]; exact h.made, ?_⟩
  rw [ha, chain_define]
  exact assign_frames h.frames (st.pairwise_chain f) hi hg hslot ht hv

end Store

/-! ## What inference does to scopes -/

namespace Scopes

variable {s t u : Scopes} {a b : Bool}

/-- Types become wider, the scopes around the innermost one stay as they are, and so does that one
if nothing is defined. -/
structure Follows (defines : Bool) (s t : Scopes) : Prop where
  widens : s.Widens t
  tail : t.all.tail = s.all.tail
  all : defines = false → t.all = s.all

theorem Follows.refl (s : Scopes) : s.Follows a s :=
  ⟨.refl s, rfl, fun _ => rfl⟩

theorem Follows.trans (h : s.Follows a t) (k : t.Follows b u) : s.Follows (a || b) u where
  widens := h.widens.trans k.widens
  tail := k.tail.trans h.tail
  all e := by
    rw [Bool.or_eq_false_iff] at e
    exact (k.all e.2).trans (h.all e.1)

theorem follows_modify (s : Scopes) (i : Nat) {f : Binding → Binding}
    (hd : ∀ b, (f b).declared = b.declared) (ht : ∀ b (v : Value), v.Of b.type → v.Of (f b).type) :
    s.Follows a (s.modify i f) :=
  ⟨s.widens_modify i hd ht, rfl, fun _ => rfl⟩

theorem follows_define (s : Scopes) (name : String) (b : Binding) :
    s.Follows true (s.define name b).2 := by
  obtain ⟨top, outer, hs, hd⟩ := s.all_define name b
  exact ⟨s.widens_define name b, by rw [hs, hd]; rfl, nofun⟩

/-- What happens in a scope of its own changes no names. -/
theorem Follows.inScope (h : s.enter.Follows a t) : s.Follows b t.leave := by
  have left : t.leave.all = s.all := all_leave h.tail
  exact ⟨fun i b hb => h.widens i b hb, by rw [left], fun _ => left⟩

theorem reference?_follows {name : String} {default : Option String} {ty : Ty}
    (h : s.reference? name default = some (ty, t)) : s.Follows a t := by
  unfold reference? at h
  split at h
  · cases h
    exact s.follows_modify _ (fun _ => rfl) fun _ _ hv => hv
  · cases h
    exact s.follows_modify _ (fun _ => rfl) fun _ _ hv => hv
  · cases h
  · cases h
    exact .refl s

theorem define?_follows {name : String} {declared : Option Ty} {found ty : Ty} {span : Option Span}
    (h : s.define? name declared found span = some (ty, t)) : s.Follows true t := by
  unfold define? at h
  dsimp only at h
  split_ifs at h
  cases h
  exact s.follows_define name _

theorem assign?_follows {name : String} {found ty : Ty}
    (h : s.assign? name found = some (ty, t)) : s.Follows a t := by
  obtain ⟨⟨i, b⟩, -, h⟩ := Option.bind_eq_some_iff.mp h
  split at h
  · split_ifs at h
    cases h
    exact .refl s
  · cases h
    exact s.follows_modify i (fun _ => rfl) fun _ _ hv => hv.join_left

end Scopes

namespace Node

open Scopes

mutual

theorem infer?_follows (n : Node) {s s' : Scopes} {t : Ty} (h : n.infer? s = some (t, s')) :
    s.Follows n.defines s' := by
  rw [infer?.eq_def, Option.filter_eq_some_iff] at h
  replace h := h.1
  cases n with
  | literal =>
    cases h
    exact .refl s
  | reference => exact reference?_follows h
  | interpolation span parts =>
    obtain ⟨u, hu, e⟩ := Option.map_eq_some_iff.mp h
    cases e
    exact inferParts?_follows parts hu
  | substitution span body =>
    obtain ⟨⟨ts, u⟩, hu, e⟩ := Option.map_eq_some_iff.mp h
    cases e
    exact (inferAll?_follows body hu).inScope
  | block span body =>
    obtain ⟨⟨ts, u⟩, hu, e⟩ := Option.map_eq_some_iff.mp h
    cases e
    exact (inferAll?_follows body hu).inScope
  | program span body =>
    obtain ⟨⟨ts, u⟩, hu, e⟩ := Option.map_eq_some_iff.mp h
    cases e
    exact inferAll?_follows body hu
  | conditional span condition thenBranch elseBranch =>
    cases elseBranch with
    | none =>
      obtain ⟨⟨c, u⟩, hc, h⟩ := Option.bind_eq_some_iff.mp h
      dsimp only at h
      split_ifs at h
      obtain ⟨⟨a, x⟩, ha, e⟩ := Option.bind_eq_some_iff.mp h
      cases e
      exact (infer?_follows condition hc).trans (infer?_follows thenBranch ha)
    | some elseBranch =>
      obtain ⟨⟨c, u⟩, hc, h⟩ := Option.bind_eq_some_iff.mp h
      dsimp only at h
      split_ifs at h
      obtain ⟨⟨a, x⟩, ha, h⟩ := Option.bind_eq_some_iff.mp h
      obtain ⟨⟨b, y⟩, hb, e⟩ := Option.bind_eq_some_iff.mp h
      cases e
      exact ((infer?_follows condition hc).trans (infer?_follows thenBranch ha)).trans
        (infer?_follows elseBranch hb)
  | binary span op left right =>
    obtain ⟨⟨l, u⟩, hl, h⟩ := Option.bind_eq_some_iff.mp h
    obtain ⟨⟨r, x⟩, hr, h⟩ := Option.bind_eq_some_iff.mp h
    obtain ⟨t, -, e⟩ := Option.map_eq_some_iff.mp h
    cases e
    exact (infer?_follows left hl).trans (infer?_follows right hr)
  | unary span op operand =>
    obtain ⟨⟨v, u⟩, hv, h⟩ := Option.bind_eq_some_iff.mp h
    obtain ⟨t, -, e⟩ := Option.map_eq_some_iff.mp h
    cases e
    exact infer?_follows operand hv
  | define span name declared value =>
    obtain ⟨⟨v, u⟩, hv, h⟩ := Option.bind_eq_some_iff.mp h
    have follows := (infer?_follows value hv).trans (define?_follows h)
    rw [Bool.or_true] at follows
    exact follows
  | assign span name value =>
    obtain ⟨⟨v, u⟩, hv, h⟩ := Option.bind_eq_some_iff.mp h
    have follows := (infer?_follows value hv).trans (assign?_follows (a := false) h)
    rw [Bool.or_false] at follows
    exact follows
  | binding | command | call | parameter | function | ret | blank => cases h

theorem inferAll?_follows : ∀ (ns : List Node) {s s' : Scopes} {ts : List Ty},
    inferAll? s ns = some (ts, s') → s.Follows (definesAny ns) s'
  | [], _, _, _, h => by
    cases h
    exact .refl _
  | n :: ns, _, _, _, h => by
    obtain ⟨⟨v, u⟩, hv, h⟩ := Option.bind_eq_some_iff.mp h
    obtain ⟨⟨vs, x⟩, hvs, e⟩ := Option.bind_eq_some_iff.mp h
    cases e
    exact (infer?_follows n hv).trans (inferAll?_follows ns hvs)

theorem inferParts?_follows : ∀ (ps : List Part) {s s' : Scopes},
    inferParts? s ps = some s' → s.Follows (definesParts ps) s'
  | [], _, _, h => by
    cases h
    exact .refl _
  | .text _ :: ps, _, _, h => inferParts?_follows ps h
  | .node n :: ps, _, _, h => by
    obtain ⟨⟨v, u⟩, hv, h⟩ := Option.bind_eq_some_iff.mp h
    exact (infer?_follows n hv).trans (inferParts?_follows ps h)

end

end Node

end Sigil
