/-!
# Positions and spans

Where in a text a piece of it stands. A position counts characters from the
start, and the line and column that an editor shows; a span is the piece
between two positions.
-/

namespace Sigil

/-- A place between two characters of a text. Offsets count from zero, lines and columns from
one. -/
structure Position where
  offset : Nat
  line : Nat
  column : Nat
deriving DecidableEq, Repr, Inhabited

namespace Position

/-- The place before the first character. -/
def start : Position := ⟨0, 1, 1⟩

/-- The place after one more character. -/
def step (p : Position) (c : Char) : Position :=
  if c = '\n' then ⟨p.offset + 1, p.line + 1, 1⟩ else ⟨p.offset + 1, p.line, p.column + 1⟩

/-- The place after more characters. -/
def after (p : Position) (cs : List Char) : Position :=
  cs.foldl step p

@[simp] theorem after_nil (p : Position) : p.after [] = p := rfl

@[simp] theorem after_cons (p : Position) (c : Char) (cs : List Char) :
    p.after (c :: cs) = (p.step c).after cs := rfl

theorem after_append (p : Position) (cs ds : List Char) :
    p.after (cs ++ ds) = (p.after cs).after ds :=
  List.foldl_append

/-- The offset grows by the number of characters passed. -/
theorem offset_after (p : Position) (cs : List Char) :
    (p.after cs).offset = p.offset + cs.length := by
  induction cs generalizing p with
  | nil => rfl
  | cons c cs ih => rw [after_cons, ih, step]; split <;> simp <;> omega

/-- The place at an offset of a text: the line is one more than the line feeds before it, the column
one more than the characters since the last of them. An offset beyond the end counts on in the last
line. -/
def ofOffset (source : List Char) (offset : Nat) : Position :=
  let before := source.take offset
  ⟨offset, before.count '\n' + 1,
    offset - before.length + (before.reverse.takeWhile (· ≠ '\n')).length + 1⟩

/-- Whether one place comes before another; line and column decide between places of one offset. -/
def before (p q : Position) : Bool :=
  match compare p.offset q.offset with
  | .lt => true
  | .gt => false
  | .eq =>
    match compare p.line q.line with
    | .lt => true
    | .gt => false
    | .eq => p.column < q.column

/-- A place as messages name it. -/
def text (p : Position) : String :=
  s!"{p.line}:{p.column}"

end Position

/-- The piece of a text between two places. -/
structure Span where
  start : Position
  stop : Position
deriving DecidableEq, Repr, Inhabited

namespace Span

/-- The empty piece at a place. -/
def point (p : Position) : Span := ⟨p, p⟩

/-- The smallest span around two. -/
def merge (a b : Span) : Span :=
  ⟨if b.start.before a.start then b.start else a.start,
   if a.stop.before b.stop then b.stop else a.stop⟩

/-- The characters of a text that lie in a span. -/
def slice (s : Span) (source : List Char) : List Char :=
  (source.take s.stop.offset).drop s.start.offset

/-- A span as messages name it: by the place where it starts. -/
def text (s : Span) : String :=
  s.start.text

end Span

end Sigil
