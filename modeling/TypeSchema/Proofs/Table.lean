import Mathlib.Data.Finset.Card
import TypeSchema.Module

/-!
# The first value of a key is kept

Entries are offered to a table one after another, under any keys. Those whose key did not come
before are kept, in their order; the others are handed back. So a look-up gives what was offered
first, and never fails for a key that the index has. Modules and libraries are such tables.
-/

namespace TypeSchema

variable {α : Type} {offered : List (String × α)} {key : String} {value : α}

-- ---------------------------------------------------------------------------
-- First entries
-- ---------------------------------------------------------------------------

/-- The entries whose key does not come before. -/
def firsts : List (String × α) → List (String × α)
  | [] => []
  | entry :: more => entry :: (firsts more).filter (·.1 ≠ entry.1)

theorem lookup_filter_ne {other : String} (h : key ≠ other) (entries : List (String × α)) :
    (entries.filter (·.1 ≠ other)).lookup key = entries.lookup key := by
  induction entries with
  | nil => rfl
  | cons entry entries ih =>
    by_cases hother : entry.1 = other
    · rw [List.filter_cons_of_neg (by simpa using hother), ih, List.lookup_cons,
        beq_false_of_ne (hother ▸ h)]
    · rw [List.filter_cons_of_pos (by simpa using hother), List.lookup_cons, List.lookup_cons, ih]

theorem lookup_firsts (offered : List (String × α)) (key : String) :
    (firsts offered).lookup key = offered.lookup key := by
  induction offered with
  | nil => rfl
  | cons entry more ih =>
    rw [firsts, List.lookup_cons, List.lookup_cons]
    by_cases h : key = entry.1
    · rw [beq_iff_eq.mpr h]
    · rw [beq_false_of_ne h, lookup_filter_ne h, ih]

theorem mem_keys_firsts : key ∈ (firsts offered).map Prod.fst ↔ key ∈ offered.map Prod.fst := by
  rw [← Table.lookup_isSome_iff, lookup_firsts, Table.lookup_isSome_iff]

theorem firsts_concat_of_free {entry : String × α} (h : entry.1 ∉ offered.map Prod.fst) :
    firsts (offered ++ [entry]) = firsts offered ++ [entry] := by
  induction offered with
  | nil => rfl
  | cons first more ih =>
    rw [List.map_cons, List.mem_cons, not_or] at h
    rw [List.cons_append, firsts, ih h.2, firsts, List.filter_append, List.cons_append,
      List.filter_cons_of_pos (by simpa using h.1), List.filter_nil]

theorem firsts_concat_of_taken {entry : String × α} (h : entry.1 ∈ offered.map Prod.fst) :
    firsts (offered ++ [entry]) = firsts offered := by
  induction offered with
  | nil => cases h
  | cons first more ih =>
    rw [List.cons_append, firsts, firsts]
    by_cases hmore : entry.1 ∈ more.map Prod.fst
    · rw [ih hmore]
    · have hfirst : entry.1 = first.1 := (List.mem_cons.mp h).resolve_right hmore
      rw [firsts_concat_of_free hmore, List.filter_append,
        List.filter_cons_of_neg (by simpa using hfirst), List.filter_nil, List.append_nil]

-- ---------------------------------------------------------------------------
-- Tables
-- ---------------------------------------------------------------------------

namespace Table

variable {t : Table α}

def insertAll (t : Table α) (offered : List (String × α)) : Table α :=
  offered.foldl (fun t entry => (t.insert entry.1 entry.2).2) t

theorem insert_of_taken (h : key ∈ t.keys) (value : α) :
    t.insert key value = (.error value, t) := by
  rw [insert, insert?_eq_none_iff.mpr h]

theorem insert_of_free (h : key ∉ t.keys) (value : α) :
    ∃ grown, t.insert key value = (.ok (), grown) ∧
      grown.entries = t.entries ++ [(key, value)] := by
  cases hinsert : t.insert? key value with
  | none => exact absurd (insert?_eq_none_iff.mp hinsert) h
  | some grown => exact ⟨grown, by rw [insert, hinsert], entries_insert? hinsert⟩

theorem entries_insert (h : t.entries = firsts offered) (entry : String × α) :
    (t.insert entry.1 entry.2).2.entries = firsts (offered ++ [entry]) := by
  have hkeys : entry.1 ∈ t.keys ↔ entry.1 ∈ offered.map Prod.fst := by
    rw [← map_fst_entries, h, mem_keys_firsts]
  by_cases taken : entry.1 ∈ t.keys
  · rw [insert_of_taken taken, h, firsts_concat_of_taken (hkeys.mp taken)]
  · obtain ⟨grown, hinsert, hgrown⟩ := insert_of_free taken entry.2
    rw [hinsert, hgrown, h, firsts_concat_of_free (mt hkeys.mpr taken)]

theorem entries_insertAll (offered : List (String × α)) :
    (empty.insertAll offered).entries = firsts offered := by
  induction offered using List.reverseRecOn with
  | nil => rfl
  | append_singleton offered entry ih =>
    rw [insertAll, List.foldl_concat]
    exact entries_insert ih entry

example : (empty.insertAll [("b", 1), ("a", 2), ("b", 3)]).entries = [("b", 1), ("a", 2)] := by
  decide

theorem insert_insertAll (offered : List (String × α)) (key : String) (value : α) :
    (empty.insertAll offered).insert key value =
      if key ∈ offered.map Prod.fst then (.error value, empty.insertAll offered)
      else (.ok (), empty.insertAll (offered ++ [(key, value)])) := by
  have hkeys : key ∈ (empty.insertAll offered).keys ↔ key ∈ offered.map Prod.fst := by
    rw [← map_fst_entries, entries_insertAll, mem_keys_firsts]
  split
  next taken => exact insert_of_taken (hkeys.mpr taken) value
  next free =>
    obtain ⟨grown, hinsert, -⟩ := insert_of_free (mt hkeys.mp free) value
    rw [insertAll, insertAll, List.foldl_concat, ← insertAll, hinsert]

end Table

-- ---------------------------------------------------------------------------
-- What is shown of a table
-- ---------------------------------------------------------------------------

/-- What a collection shows if it keeps the first of the values that were offered for a key. -/
structure KeepsFirst (offered : List (String × α)) (index : List (String × Nat))
    (get? : String → Option α) (contains : String → Bool) (values : List α) (size : Nat) :
    Prop where
  /-- The index leads to a value, so a look-up of its key does not fail. -/
  found : ∀ key place, (key, place) ∈ index →
    ∃ h : place < values.length, get? key = some values[place]
  /-- The value that was offered first for the key. -/
  first : ∀ key, get? key = offered.lookup key
  agrees : ∀ key, contains key = (get? key).isSome
  listed : values = (firsts offered).map Prod.snd
  counted : size = values.length
  distinct : size = (offered.map Prod.fst).toFinset.card

theorem Table.keepsFirst (offered : List (String × α)) :
    let t := Table.empty.insertAll offered
    KeepsFirst offered t.index t.get? t.contains t.values t.size where
  found key place h := by
    obtain ⟨hplace, -⟩ := List.getElem?_eq_some_iff.mp (mem_index_iff.mp h)
    rw [length_keys] at hplace
    refine ⟨hplace, ?_⟩
    rw [get?, lookup_index_iff.mpr h, Option.bind_some, List.getElem?_eq_getElem hplace]
  first key := by rw [get?_eq_lookup, entries_insertAll, lookup_firsts]
  agrees key := contains_eq _ key
  listed := by rw [← map_snd_entries, entries_insertAll]
  counted := rfl
  distinct := by
    have hnodup := keys_nodup (empty.insertAll offered)
    have hkeys : ((empty.insertAll offered).entries.map Prod.fst).toFinset =
        (offered.map Prod.fst).toFinset := by
      ext key
      rw [List.mem_toFinset, List.mem_toFinset, entries_insertAll, mem_keys_firsts]
    rw [← hkeys, List.toFinset_card_of_nodup hnodup, map_fst_entries, length_keys, size]

-- ---------------------------------------------------------------------------
-- Modules and libraries
-- ---------------------------------------------------------------------------

namespace Module

def insertAll (m : Module) (offered : List (String × Definition)) : Module :=
  offered.foldl (fun m entry => (m.insert entry.1 entry.2).2) m

theorem insert_eq (m : Module) (key : String) (d : Definition) :
    m.insert key d = ((m.table.insert key d).1, { m with table := (m.table.insert key d).2 }) :=
  rfl

theorem insertAll_eq (m : Module) (offered : List (String × Definition)) :
    m.insertAll offered = { m with table := m.table.insertAll offered } := by
  induction offered using List.reverseRecOn with
  | nil => rfl
  | append_singleton offered entry ih =>
    rw [insertAll, List.foldl_concat, ← insertAll, ih, insert_eq, Table.insertAll, Table.insertAll,
      List.foldl_concat]

theorem insert_insertAll (name file : String) (offered : List (String × Definition)) (key : String)
    (d : Definition) :
    ((empty name file).insertAll offered).insert key d =
      if key ∈ offered.map Prod.fst then (.error d, (empty name file).insertAll offered)
      else (.ok (), (empty name file).insertAll (offered ++ [(key, d)])) := by
  rw [insertAll_eq, insertAll_eq, insert_eq, empty, Table.insert_insertAll]
  split <;> rfl

end Module

namespace Library

def insertAll (l : Library) (offered : List Module) : Library :=
  offered.foldl (fun l m => (l.insert m).2) l

theorem insert_eq (l : Library) (m : Module) :
    ((l.insert m).1, (l.insert m).2.table) = l.table.insert m.name m := by
  rw [insert, Table.insert]
  cases h : l.insert? m with
  | none =>
    rw [insert?_eq_none_iff, contains, Table.contains_iff] at h
    rw [Table.insert?_eq_none_iff.mpr h]
  | some grown => rw [table_insert? h]

theorem table_insertAll (l : Library) (offered : List Module) :
    (l.insertAll offered).table = l.table.insertAll (offered.map fun m => (m.name, m)) := by
  induction offered using List.reverseRecOn with
  | nil => rfl
  | append_singleton offered m ih =>
    rw [insertAll, List.foldl_concat, ← insertAll, List.map_append, List.map_singleton,
      Table.insertAll, List.foldl_concat, ← Table.insertAll, ← ih, ← insert_eq]

theorem map_fst_named (offered : List Module) :
    (offered.map fun m => (m.name, m)).map Prod.fst = offered.map (·.name) := List.map_map

theorem insert_insertAll (offered : List Module) (m : Module) :
    (empty.insertAll offered).insert m =
      if m.name ∈ offered.map (·.name) then (.error m, empty.insertAll offered)
      else (.ok (), empty.insertAll (offered ++ [m])) := by
  have hinsert := insert_eq (empty.insertAll offered) m
  rw [table_insertAll, empty, Table.insert_insertAll, map_fst_named] at hinsert
  split at hinsert
  next taken =>
    obtain ⟨answer, table⟩ := Prod.mk.inj hinsert
    rw [if_pos taken]
    exact Prod.ext answer (eq_of_table (table.trans (table_insertAll empty offered).symm))
  next free =>
    obtain ⟨answer, -⟩ := Prod.mk.inj hinsert
    rw [if_neg free, insertAll, insertAll, List.foldl_concat]
    exact Prod.ext answer rfl

end Library

/-- A module keeps the first definition offered for a key and a library the first module of a name.
They hand the others back and show the same as before; what was kept is listed in order. -/
theorem modules_and_libraries_keepFirst :
    (∀ (name file : String) (offered : List (String × Definition)),
      let m := (Module.empty name file).insertAll offered
      KeepsFirst offered m.table.index m.get? m.contains m.definitions m.size ∧
        ∀ key d, m.insert key d =
          if key ∈ offered.map Prod.fst then (.error d, m)
          else (.ok (), (Module.empty name file).insertAll (offered ++ [(key, d)]))) ∧
    ∀ offered : List Module,
      let l := Library.empty.insertAll offered
      KeepsFirst (offered.map fun m => (m.name, m)) l.table.index l.get? l.contains l.modules
          l.size ∧
        ∀ m, l.insert m =
          if m.name ∈ offered.map (·.name) then (.error m, l)
          else (.ok (), Library.empty.insertAll (offered ++ [m])) := by
  constructor
  · intro name file offered m
    refine ⟨?_, Module.insert_insertAll name file offered⟩
    have table : m.table = Table.empty.insertAll offered :=
      congrArg Module.table (Module.insertAll_eq (Module.empty name file) offered)
    show KeepsFirst offered m.table.index m.table.get? m.table.contains m.table.values m.table.size
    rw [table]
    exact Table.keepsFirst offered
  · intro offered l
    refine ⟨?_, Library.insert_insertAll offered⟩
    have table : l.table = Table.empty.insertAll (offered.map fun m => (m.name, m)) :=
      Library.table_insertAll Library.empty offered
    show KeepsFirst _ l.table.index l.table.get? l.table.contains l.table.values l.table.size
    rw [table]
    exact Table.keepsFirst _

end TypeSchema
