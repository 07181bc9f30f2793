/-!
# Tables of names

A table keeps the order in which its names were first put in; giving a name
another value moves nothing. The main statements say what a table holds for a
name after one was put in (`get?_insert`), and that its names stay where they
are (`keys_insert`).
-/

namespace Sigil

/-- Names with what they stand for, in the order in which they were first put in. -/
abbrev Names (α : Type) := List (String × α)

namespace Names

variable {α : Type}

/-- What a name stands for. -/
def get? (t : Names α) (name : String) : Option α :=
  match t with
  | [] => none
  | (n, a) :: t => if n = name then some a else get? t name

/-- The table in which a name stands for a given thing: in the place that it has, or else at the
end. -/
def insert (t : Names α) (name : String) (a : α) : Names α :=
  match t with
  | [] => [(name, a)]
  | (n, b) :: t => if n = name then (n, a) :: t else (n, b) :: insert t name a

/-- The table without a name. -/
def erase (t : Names α) (name : String) : Names α :=
  t.filter (·.1 ≠ name)

/-- The names, in order. -/
def keys (t : Names α) : List String :=
  t.map (·.1)

@[simp] theorem get?_nil (name : String) : get? ([] : Names α) name = none := rfl

/-- After a name was put in, it stands for what was put in, and every other name for what it stood
for before. -/
theorem get?_insert (t : Names α) (name other : String) (a : α) :
    get? (insert t name a) other = if name = other then some a else get? t other := by
  induction t with
  | nil => simp [insert, get?]
  | cons p t ih =>
    obtain ⟨n, b⟩ := p
    by_cases h : n = name
    · subst h; by_cases k : n = other <;> simp [insert, get?, k]
    · by_cases k : n = other
      · subst k; simp [insert, get?, h, Ne.symm h]
      · simp [insert, get?, h, k, ih]

/-- A name is in the table exactly if it stands for something. -/
theorem mem_keys_iff (t : Names α) (name : String) : name ∈ keys t ↔ (get? t name).isSome := by
  induction t with
  | nil => simp [keys, get?]
  | cons p t ih =>
    obtain ⟨n, b⟩ := p
    by_cases h : n = name
    · simp [keys, get?, h]
    · simpa [keys, get?, h, Ne.symm h] using ih

/-- Putting a name in leaves the names where they are; a new one goes to the end. -/
theorem keys_insert (t : Names α) (name : String) (a : α) :
    keys (insert t name a) = if name ∈ keys t then keys t else keys t ++ [name] := by
  induction t with
  | nil => simp [insert, keys]
  | cons p t ih =>
    obtain ⟨n, b⟩ := p
    by_cases h : n = name
    · simp [insert, keys, h]
    · by_cases k : name ∈ keys t
      · simp_all [insert, keys]
      · simp_all [insert, keys, Ne.symm h]

end Names

end Sigil
