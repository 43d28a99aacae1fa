/-!
# Places in a text

A location is a line and a column, both counted from 1 and both in characters.
Only a line feed ends a line; a carriage return is a character like any other.
Counts stop at `Location.limit`, so two places of a longer text may share one location.
-/

namespace TypeSchema

structure Location where
  line : Nat
  column : Nat
  deriving DecidableEq, Repr

namespace Location

def start : Location := ⟨1, 1⟩

/-- The greatest line and column that are told apart. -/
def limit : Nat := 4294967295

def next (l : Location) (c : Char) : Location :=
  if c = '\n' then ⟨min (l.line + 1) limit, 1⟩ else ⟨l.line, min (l.column + 1) limit⟩

def after (l : Location) (text : List Char) : Location := text.foldl next l

/-- Lines first, then columns: the order of the text. -/
instance : Ord Location where
  compare a b := (compare a.line b.line).then (compare a.column b.column)

instance : LT Location where
  lt a b := a.line < b.line ∨ a.line = b.line ∧ a.column < b.column

instance (a b : Location) : Decidable (a < b) :=
  inferInstanceAs (Decidable (a.line < b.line ∨ a.line = b.line ∧ a.column < b.column))

instance : ToString Location where
  toString l := s!"{l.line}:{l.column}"

@[simp] theorem after_nil (l : Location) : l.after [] = l := rfl

@[simp] theorem after_cons (l : Location) (c : Char) (text : List Char) :
    l.after (c :: text) = (l.next c).after text := rfl

theorem after_append (l : Location) (first second : List Char) :
    l.after (first ++ second) = (l.after first).after second := by
  simp [after]

theorem lt_iff {a b : Location} :
    a < b ↔ a.line < b.line ∨ a.line = b.line ∧ a.column < b.column := Iff.rfl

theorem compare_eq_lt_iff {a b : Location} : compare a b = .lt ↔ a < b := by
  show (compare a.line b.line).then (compare a.column b.column) = .lt ↔ _
  rw [Ordering.then_eq_lt, Nat.compare_eq_lt, Nat.compare_eq_eq, Nat.compare_eq_lt, lt_iff]

end Location

end TypeSchema
