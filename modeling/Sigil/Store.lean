import Sigil.Names
import Sigil.Value

/-!
# The store

The frames in which running scripts keep the values of their names. A frame
may lie within another one, where names that it does not have are looked for;
closures keep frames alive by naming them. Frames are never removed, and a
frame always lies within one that was made before it.

The main statements say how many frames there are after each operation and
which frames it leaves as they were.
-/

namespace Sigil

/-- A value under a name, with the type declared for it. -/
structure Slot where
  value : Value
  declared : Option Ty

/-- A frame: its names, and the frame that it lies within. -/
structure Frame where
  slots : Names Slot
  outer : Option FrameId

/-- All frames, in the order in which they were made. -/
structure Store where
  frames : Array Frame

namespace Store

/-- No frames. -/
def empty : Store := ⟨#[]⟩

/-- The frame that a frame lies within, if it was made before. -/
def outer? (s : Store) (f : FrameId) : Option FrameId :=
  (s.frames[f]?.bind (·.outer)).filter (· < f)

/-- A frame and the frames around it, innermost first. -/
def chain (s : Store) (f : FrameId) : List FrameId :=
  match _h : s.outer? f with
  | none => [f]
  | some o => f :: chain s o
termination_by f
decreasing_by simp [outer?, Option.filter_eq_some_iff] at _h; exact _h.2

/-- The slot of a name in a frame itself. -/
def slotIn? (s : Store) (f : FrameId) (name : String) : Option Slot :=
  s.frames[f]?.bind (·.slots.get? name)

/-- The innermost of the frames around a place that has a name. -/
def find? (s : Store) (f : FrameId) (name : String) : Option FrameId :=
  (s.chain f).find? fun g => (s.slotIn? g name).isSome

/-- The slot that a name means. -/
def slot? (s : Store) (f : FrameId) (name : String) : Option Slot :=
  (s.find? f name).bind (s.slotIn? · name)

/-- The value that a name means. -/
def lookup? (s : Store) (f : FrameId) (name : String) : Option Value :=
  (s.slot? f name).map (·.value)

/-- Makes a frame without names; also its place. -/
def push (s : Store) (outer : Option FrameId) : FrameId × Store :=
  (s.frames.size, ⟨s.frames.push ⟨[], outer⟩⟩)

/-- Gives a name a slot in a frame, in place of one that it has there. -/
def define (s : Store) (f : FrameId) (name : String) (slot : Slot) : Store :=
  ⟨s.frames.modify f fun frame => { frame with slots := frame.slots.insert name slot }⟩

/-- Changes the value that a name means; a name that means nothing is left alone. -/
def assign (s : Store) (f : FrameId) (name : String) (v : Value) : Store :=
  match s.find? f name with
  | none => s
  | some g =>
    match s.slotIn? g name with
    | none => s
    | some slot => s.define g name { slot with value := v }

/-- The outermost of the frames around a place. -/
def root (s : Store) (f : FrameId) : FrameId :=
  (s.chain f).getLast?.getD f

/-- The names of a frame itself, in order. -/
def ownNames (s : Store) (f : FrameId) : List String :=
  match s.frames[f]? with
  | none => []
  | some frame => frame.slots.keys

/-- The names that mean something at a place, innermost frames first, each once. -/
def names (s : Store) (f : FrameId) : List String :=
  ((s.chain f).flatMap s.ownNames).eraseDups

@[simp] theorem size_push (s : Store) (outer : Option FrameId) :
    (s.push outer).2.frames.size = s.frames.size + 1 := by
  simp [push]

@[simp] theorem size_define (s : Store) (f : FrameId) (name : String) (slot : Slot) :
    (s.define f name slot).frames.size = s.frames.size := by
  simp [define]

/-- A new frame leaves all others as they were. -/
theorem getElem?_push (s : Store) (outer : Option FrameId) {g : FrameId} (h : g < s.frames.size) :
    (s.push outer).2.frames[g]? = s.frames[g]? := by
  simp [push, Array.getElem?_push, Nat.ne_of_lt h]

/-- A definition in one frame leaves all others as they were. -/
theorem getElem?_define (s : Store) {f g : FrameId} (name : String) (slot : Slot) (h : f ≠ g) :
    (s.define f name slot).frames[g]? = s.frames[g]? := by
  simp [define, Array.getElem?_modify, h]

/-! ## Listings -/

/-- The names of a frame with their values, as a listing shows them; a value may be too long for
it. -/
def listing? (s : Store) (f : FrameId) : Option String := do
  let frame ← s.frames[f]?
  let items ← frame.slots.mapM fun (name, slot) => do
    return "$" ++ name ++ ": " ++ (← slot.value.describe?)
  return "\x7b" ++ ", ".intercalate items ++ "\x7d"

/-- A frame on its own, with a mark if it lies within another. -/
def text? (s : Store) (f : FrameId) : Option String := do
  return (← s.listing? f) ++ (if (s.outer? f).isSome then " -> ..." else "")

/-- A frame with all frames around it. -/
def describe? (s : Store) (f : FrameId) : Option String := do
  return "<Environment chain: " ++ " -> ".intercalate (← (s.chain f).mapM s.listing?) ++ ">"

end Store

end Sigil
