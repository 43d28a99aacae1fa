import TypeSchema.Definition.Equality
import TypeSchema.Table

/-!
# Modules and libraries

A module is what one file defines: a table of definitions under the names that the module knows
them by. A library holds modules under their own names. Both keep the first value of a name.
-/

namespace TypeSchema

structure Module where
  name : String
  file : String
  table : Table Definition

namespace Module

def empty (name file : String) : Module := ⟨name, file, .empty⟩

def definitions (m : Module) : List Definition := m.table.values

def get? (m : Module) (key : String) : Option Definition := m.table.get? key

def contains (m : Module) (key : String) : Bool := m.table.contains key

def size (m : Module) : Nat := m.table.size

def isEmpty (m : Module) : Bool := m.table.isEmpty

def insert? (m : Module) (key : String) (d : Definition) : Option Module :=
  (m.table.insert? key d).map fun table => { m with table }

/-- Puts a definition in. If its key is taken, the definition is handed back. -/
def insert (m : Module) (key : String) (d : Definition) : Except Definition Unit × Module :=
  let (answer, table) := m.table.insert key d
  (answer, { m with table })

/-- Whether two modules agree in name, file and definitions. Keys are not compared. -/
def agrees (m n : Module) : Bool :=
  m.name = n.name && m.file = n.file && m.definitions = n.definitions

theorem agrees_iff {m n : Module} :
    m.agrees n ↔ m.name = n.name ∧ m.file = n.file ∧ m.definitions = n.definitions := by
  simp [agrees, and_assoc]

end Module

/-- Modules under their own names, in the order they were put in. -/
structure Library where
  table : Table Module
  keyed : ∀ entry ∈ table.entries, entry.1 = entry.2.name

namespace Library

def empty : Library := ⟨.empty, by simp⟩

instance : Inhabited Library := ⟨empty⟩

def modules (l : Library) : List Module := l.table.values

def get? (l : Library) (name : String) : Option Module := l.table.get? name

def contains (l : Library) (name : String) : Bool := l.table.contains name

def size (l : Library) : Nat := l.table.size

def isEmpty (l : Library) : Bool := l.table.isEmpty

def insert? (l : Library) (m : Module) : Option Library :=
  match h : l.table.insert? m.name m with
  | none => none
  | some table => some {
      table
      keyed := by
        rw [Table.entries_insert? h]
        intro entry member
        rcases List.mem_append.1 member with old | new
        · exact l.keyed entry old
        · rw [List.mem_singleton.1 new] }

def insert (l : Library) (m : Module) : Except Module Unit × Library :=
  match l.insert? m with
  | none => (.error m, l)
  | some grown => (.ok (), grown)

theorem eq_of_table {l l' : Library} (h : l.table = l'.table) : l = l' := by
  cases l
  cases l'
  cases h
  rfl

theorem table_insert? {l grown : Library} {m : Module} (h : l.insert? m = some grown) :
    l.table.insert? m.name m = some grown.table := by
  unfold insert? at h
  split at h
  next => cases h
  next table found => cases h; exact found

theorem insert?_eq_none_iff {l : Library} {m : Module} :
    l.insert? m = none ↔ l.contains m.name := by
  rw [contains, Table.contains_iff, ← @Table.insert?_eq_none_iff _ _ _ m, insert?]
  split
  next h => simp [h]
  next h => simp [h]

theorem contains_eq (l : Library) (name : String) : l.contains name = (l.get? name).isSome :=
  l.table.contains_eq name

theorem contains_iff {l : Library} {name : String} :
    l.contains name ↔ ∃ m, l.get? name = some m := by
  rw [contains_eq, Option.isSome_iff_exists]

theorem name_of_get? {l : Library} {name : String} {m : Module} (h : l.get? name = some m) :
    m.name = name := by
  have member : (name, m) ∈ l.table.entries := by
    rw [get?, Table.get?_eq_lookup] at h
    obtain ⟨before, after, split, -⟩ := List.lookup_eq_some_iff.1 h
    simp [split]
  exact (l.keyed _ member).symm

end Library

end TypeSchema
