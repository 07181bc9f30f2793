import Mathlib.Tactic.SplitIfs
import Sigil.Evaluation
import Sigil.Proofs.Node.Relabelled
import Sigil.Proofs.Store.Frames

/-!
# Relabelled values and stores

Values, stores and worlds with other labels inside their closures and slots.
Every operation on the store does the same to a store with other labels
(`relabel_push`, `relabel_define`, `relabel_assign`, `lookup?_relabel`); of two
values with other labels the same is true (`equal_relabel`,
`order?_relabel`), since no operation looks into a closure, but for its
signature and its text.
-/

namespace Sigil

namespace Names

variable {α β : Type} (g : α → β)

/-- A table whose names stand for what a function makes of what they stood for. -/
def mapValues (t : Names α) : Names β :=
  t.map fun p => (p.1, g p.2)

theorem get?_mapValues (t : Names α) (name : String) :
    (t.mapValues g).get? name = (t.get? name).map g := by
  induction t with
  | nil => rfl
  | cons p t ih =>
    obtain ⟨n, a⟩ := p
    simp only [mapValues, List.map_cons, get?]
    split
    · rfl
    · exact ih

theorem mapValues_insert (t : Names α) (name : String) (a : α) :
    (t.insert name a).mapValues g = (t.mapValues g).insert name (g a) := by
  induction t with
  | nil => rfl
  | cons p t ih =>
    obtain ⟨n, b⟩ := p
    simp only [mapValues, List.map_cons, insert]
    split
    · rfl
    · exact congrArg ((n, g b) :: ·) ih

end Names

/-! ## Values -/

/-- A closure with other labels. -/
def Closure.relabel (r : Relabel) (c : Closure) : Closure :=
  { c with
    params := c.params.map (·.relabel r)
    returns := r.type c.returns
    bodySpan := r.span c.bodySpan
    body := Node.relabelAll r c.body }

namespace Value

variable (r : Relabel)

/-- A value with other labels. -/
def relabel : Value → Value
  | datum d => datum d
  | closure c => closure (c.relabel r)

theorem asText_relabel (v : Value) : (v.relabel r).asText = v.asText := by
  cases v <;> rfl

theorem equal_relabel (a b : Value) : (a.relabel r).equal (b.relabel r) = a.equal b := by
  cases a <;> cases b <;> rfl

theorem order?_relabel (a b : Value) : (a.relabel r).order? (b.relabel r) = a.order? b := by
  cases a with
  | datum d =>
    cases b with
    | datum e => rfl
    | closure c => cases d <;> rfl
  | closure c => cases b <;> rfl

theorem relabel_same (v : Value) : v.relabel .same = v := by
  cases v with
  | datum d => rfl
  | closure c =>
    simp only [relabel, Closure.relabel, Param.relabel_same, List.map_id', Relabel.span_same,
      Node.relabelAll_same]
    rfl

variable {r}

theorem type_relabel (h : r.typed) (v : Value) : (v.relabel r).type = v.type := by
  cases v with
  | datum d => rfl
  | closure c =>
    have kept (t : Option Ty) : r.type t = t := by rw [Relabel.type, if_pos h]
    simp only [relabel, type, Closure.signature, Closure.relabel, kept, List.map_map,
      Function.comp_def, Param.relabel]

theorem fits_relabel (h : r.typed) (declared : Option Ty) (v : Value) :
    (v.relabel r).fits declared = v.fits declared := by
  have same := type_relabel h v
  cases v with
  | datum d => rfl
  | closure c =>
    cases declared with
    | none => rfl
    | some t =>
      have known (c : Closure) : (closure c).fits (some t) = t.accepts (closure c).type := by
        cases t with
        | primitive p => cases p <;> rfl
        | _ => rfl
      rw [known, ← same]
      exact known (c.relabel r)

/-- The text of a closure tells the types that are declared in it, and no span. -/
theorem text_relabel (h : r.typed) (c : Closure) : (c.relabel r).text = c.text := by
  have kept (t : Option Ty) : r.type t = t := if_pos h
  have params : (c.params.map (·.relabel r)).map (fun p => String.ofList p.source) =
      c.params.map fun p => String.ofList p.source := by
    rw [List.map_map]
    refine List.map_congr_left fun p _ => ?_
    simp only [Function.comp, Param.source, Param.relabel, kept]
  simp only [Closure.text, Closure.relabel, kept, params]

theorem argument?_relabel (h : r.typed) (v : Value) : (v.relabel r).argument? = v.argument? := by
  cases v with
  | datum d => rfl
  | closure c => exact congrArg some (text_relabel h c)

end Value

/-! ## The store -/

/-- A slot with other labels. -/
def Slot.relabel (r : Relabel) (slot : Slot) : Slot :=
  ⟨slot.value.relabel r, r.type slot.declared⟩

/-- A frame with other labels. -/
def Frame.relabel (r : Relabel) (frame : Frame) : Frame :=
  ⟨frame.slots.mapValues (·.relabel r), frame.outer⟩

namespace Store

variable (r : Relabel) (s : Store)

/-- A store with other labels. -/
def relabel : Store :=
  ⟨s.frames.map (·.relabel r)⟩

@[simp] theorem size_relabel : (s.relabel r).frames.size = s.frames.size :=
  Array.size_map

theorem outer?_relabel (f : FrameId) : (s.relabel r).outer? f = s.outer? f := by
  simp only [outer?, relabel, Array.getElem?_map]
  cases s.frames[f]? <;> rfl

theorem chain_relabel (f : FrameId) : (s.relabel r).chain f = s.chain f :=
  chain_congr fun g _ => outer?_relabel r s g

theorem slotIn?_relabel (f : FrameId) (name : String) :
    (s.relabel r).slotIn? f name = (s.slotIn? f name).map (·.relabel r) := by
  simp only [slotIn?, relabel, Array.getElem?_map]
  cases s.frames[f]? with
  | none => rfl
  | some frame => exact Names.get?_mapValues _ _ _

theorem find?_relabel (f : FrameId) (name : String) :
    (s.relabel r).find? f name = s.find? f name := by
  refine find?_congr (chain_relabel r s f) fun g => ?_
  rw [slotIn?_relabel, Option.isSome_map]

theorem slot?_relabel (f : FrameId) (name : String) :
    (s.relabel r).slot? f name = (s.slot? f name).map (·.relabel r) := by
  rw [slot?, slot?, find?_relabel]
  cases s.find? f name with
  | none => rfl
  | some g => exact slotIn?_relabel r s g name

theorem lookup?_relabel (f : FrameId) (name : String) :
    (s.relabel r).lookup? f name = (s.lookup? f name).map (·.relabel r) := by
  rw [lookup?, lookup?, slot?_relabel, Option.map_map, Option.map_map]
  rfl

theorem relabel_push (outer : Option FrameId) :
    (s.push outer).2.relabel r = ((s.relabel r).push outer).2 := by
  simp [relabel, push, Frame.relabel, Names.mapValues]

theorem relabel_define (f : FrameId) (name : String) (slot : Slot) :
    (s.define f name slot).relabel r = (s.relabel r).define f name (slot.relabel r) := by
  simp only [relabel, define, Store.mk.injEq]
  refine Array.ext_getElem? fun g => ?_
  rw [Array.getElem?_map, Array.getElem?_modify, Array.getElem?_modify, Array.getElem?_map]
  split_ifs
  · cases s.frames[g]? with
    | none => rfl
    | some frame => simp [Frame.relabel, Names.mapValues_insert]
  · rfl

theorem relabel_assign (f : FrameId) (name : String) (v : Value) :
    (s.assign f name v).relabel r = (s.relabel r).assign f name (v.relabel r) := by
  rw [assign, assign, find?_relabel]
  cases s.find? f name with
  | none => rfl
  | some g =>
    dsimp only
    rw [slotIn?_relabel]
    cases s.slotIn? g name with
    | none => rfl
    | some slot => exact relabel_define r s g name _

theorem relabel_same : s.relabel .same = s := by
  have slot (slot : Slot) : slot.relabel .same = slot := by
    rw [Slot.relabel, Value.relabel_same]
    rfl
  have frame (frame : Frame) : frame.relabel .same = frame := by
    simp only [Frame.relabel, Names.mapValues, slot, List.map_id']
  simp only [relabel, frame, Array.map_id']

end Store

/-- A world with other labels. -/
def World.relabel (r : Relabel) (w : World) : World :=
  { w with store := w.store.relabel r }

theorem World.relabel_initial (r : Relabel) : World.initial.relabel r = World.initial := by
  have empty : Store.empty.relabel r = Store.empty := by simp [Store.relabel, Store.empty]
  have store : World.initial.store.relabel r = World.initial.store := by
    rw [World.initial, Store.relabel_push, empty]
  rw [World.relabel, store]

theorem World.relabel_same (w : World) : w.relabel .same = w := by
  rw [World.relabel, Store.relabel_same]

/-- An end with other labels. -/
def Exit.relabel (r : Relabel) : Exit → Exit
  | error e => error ⟨e.fault, r.span e.span⟩
  | returned v => returned (v.relabel r)
  | tooDeep => tooDeep

end Sigil
