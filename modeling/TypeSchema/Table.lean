/-!
# Tables that keep the first value of a key

A table lists its values in the order they were put in. Its index tells at which place the value of
a key stands. A key that is taken stays with its value: `insert?` refuses it, and changes nothing.
-/

namespace TypeSchema

structure Table (α : Type) where
  /-- The values in the order they were put in. -/
  values : List α
  /-- For each key, the place of its value. -/
  index : List (String × Nat)
  /-- The keys were put in together with the values. -/
  places : index.map Prod.snd = List.range values.length
  index_nodup : (index.map Prod.fst).Nodup

namespace Table

variable {α β : Type} {t u grown : Table α} {key : String} {value : α} {place : Nat}

def empty : Table α := ⟨[], [], rfl, .nil⟩

instance : Inhabited (Table α) := ⟨empty⟩

def keys (t : Table α) : List String := t.index.map Prod.fst

def entries (t : Table α) : List (String × α) := t.keys.zip t.values

def size (t : Table α) : Nat := t.values.length

def isEmpty (t : Table α) : Bool := t.values.isEmpty

/-- The value at the place that the index has for the key. -/
def get? (t : Table α) (key : String) : Option α :=
  (t.index.lookup key).bind fun place => t.values[place]?

def contains (t : Table α) (key : String) : Bool := (t.index.lookup key).isSome

-- ---------------------------------------------------------------------------
-- The index and the values
-- ---------------------------------------------------------------------------

@[simp] theorem entries_empty : (empty : Table α).entries = [] := rfl

theorem length_keys (t : Table α) : t.keys.length = t.values.length := by
  have := congrArg List.length t.places
  simpa [keys] using this

@[simp] theorem map_fst_entries (t : Table α) : t.entries.map Prod.fst = t.keys :=
  List.map_fst_zip (Nat.le_of_eq t.length_keys)

@[simp] theorem map_snd_entries (t : Table α) : t.entries.map Prod.snd = t.values :=
  List.map_snd_zip (Nat.le_of_eq t.length_keys.symm)

theorem keys_nodup (t : Table α) : (t.entries.map Prod.fst).Nodup := by
  rw [map_fst_entries]
  exact t.index_nodup

theorem index_eq (t : Table α) : t.index = t.keys.zip (List.range t.values.length) := by
  rw [← t.places, keys, List.zip_map', List.map_id']

theorem eq_of_entries (h : t.entries = u.entries) : t = u := by
  have values : t.values = u.values := by rw [← map_snd_entries, h, map_snd_entries]
  have keys : t.keys = u.keys := by rw [← map_fst_entries, h, map_fst_entries]
  have index : t.index = u.index := by rw [index_eq, index_eq, keys, values]
  cases t
  cases u
  cases values
  cases index
  rfl

theorem mem_index_iff : (key, place) ∈ t.index ↔ t.keys[place]? = some key := by
  rw [index_eq, List.mem_iff_getElem?]
  simp only [List.getElem?_zip_eq_some]
  constructor
  · rintro ⟨i, hkey, hplace⟩
    obtain ⟨hi, rfl⟩ := List.getElem?_eq_some_iff.mp hplace
    rwa [List.getElem_range]
  · intro hkey
    obtain ⟨hplace, -⟩ := List.getElem?_eq_some_iff.mp hkey
    exact ⟨place, hkey, List.getElem?_range (t.length_keys ▸ hplace)⟩

theorem mem_entries_iff :
    (key, value) ∈ t.entries ↔
      ∃ place, (key, place) ∈ t.index ∧ t.values[place]? = some value := by
  rw [entries, List.mem_iff_getElem?]
  simp only [mem_index_iff, List.getElem?_zip_eq_some]

private theorem lookup_eq_some_iff_mem {γ : Type} {pairs : List (String × γ)} {key : String} {c : γ}
    (h : (pairs.map Prod.fst).Nodup) : pairs.lookup key = some c ↔ (key, c) ∈ pairs := by
  rw [List.lookup_eq_some_iff]
  constructor
  · rintro ⟨before, after, rfl, -⟩
    simp
  · intro hmem
    obtain ⟨before, after, rfl⟩ := List.append_of_mem hmem
    refine ⟨before, after, rfl, fun p hp => ?_⟩
    rw [List.map_append, List.nodup_append] at h
    have := h.2.2 p.1 (List.mem_map_of_mem hp) key (by simp)
    simpa using this.symm

theorem lookup_index_iff : t.index.lookup key = some place ↔ (key, place) ∈ t.index :=
  lookup_eq_some_iff_mem t.index_nodup

/-- Looking a key up through the index is looking it up among the keys with their values. -/
theorem get?_eq_lookup (t : Table α) (key : String) : t.get? key = t.entries.lookup key := by
  ext value
  rw [get?, Option.bind_eq_some_iff, lookup_eq_some_iff_mem t.keys_nodup, mem_entries_iff]
  simp only [lookup_index_iff]

theorem lookup_isSome_iff {γ : Type} {pairs : List (String × γ)} {key : String} :
    (pairs.lookup key).isSome ↔ key ∈ pairs.map Prod.fst := by
  rw [List.lookup_isSome_iff, List.mem_map]
  exact exists_congr fun pair => and_congr_right fun _ => by rw [beq_iff_eq, eq_comm]

theorem contains_iff : t.contains key ↔ key ∈ t.keys := lookup_isSome_iff

theorem contains_eq (t : Table α) (key : String) : t.contains key = (t.get? key).isSome := by
  rw [Bool.eq_iff_iff, contains_iff, get?_eq_lookup, lookup_isSome_iff, map_fst_entries]

theorem get?_eq_none_iff : t.get? key = none ↔ key ∉ t.keys := by
  rw [← contains_iff, contains_eq, ← Option.not_isSome_iff_eq_none]

-- ---------------------------------------------------------------------------
-- Insertion
-- ---------------------------------------------------------------------------

def insert? (t : Table α) (key : String) (value : α) : Option (Table α) :=
  if free : t.contains key then none
  else some {
    values := t.values ++ [value]
    index := t.index ++ [(key, t.values.length)]
    places := by
      rw [List.map_append, t.places, List.length_append, List.length_singleton, List.range_succ]
      rfl
    index_nodup := by
      rw [contains_iff] at free
      rw [List.map_append, List.nodup_append]
      refine ⟨t.index_nodup, by simp, ?_⟩
      rintro a ha b hb rfl
      obtain rfl : a = key := by simpa using hb
      exact free ha }

/-- Puts a value in. If its key is taken, the value is handed back and the table stays as it is. -/
def insert (t : Table α) (key : String) (value : α) : Except α Unit × Table α :=
  match t.insert? key value with
  | none => (.error value, t)
  | some grown => (.ok (), grown)

theorem insert?_eq_none_iff : t.insert? key value = none ↔ key ∈ t.keys := by
  rw [← contains_iff, insert?]
  split <;> simp_all

theorem entries_insert? (h : t.insert? key value = some grown) :
    grown.entries = t.entries ++ [(key, value)] := by
  unfold insert? at h
  split at h
  next => simp at h
  next =>
    cases h
    show (List.map Prod.fst (t.index ++ _)).zip (t.values ++ [value]) = _
    rw [List.map_append]
    exact List.zip_append t.length_keys

theorem values_insert? (h : t.insert? key value = some grown) :
    grown.values = t.values ++ [value] := by
  rw [← map_snd_entries, entries_insert? h, List.map_append, map_snd_entries]
  rfl

theorem get?_insert? (h : t.insert? key value = some grown) (k : String) :
    grown.get? k = if k = key then some value else t.get? k := by
  have free : key ∉ t.keys := by
    intro taken
    rw [insert?_eq_none_iff.2 taken] at h
    cases h
  rw [get?_eq_lookup, entries_insert? h, List.lookup_append, List.lookup_cons, List.lookup_nil,
    ← get?_eq_lookup]
  by_cases hk : k = key
  · subst hk
    rw [← get?_eq_none_iff] at free
    simp [free]
  · simp [beq_false_of_ne hk, hk]

-- ---------------------------------------------------------------------------
-- Other values under the same keys
-- ---------------------------------------------------------------------------

def map (f : α → β) (t : Table α) : Table β where
  values := t.values.map f
  index := t.index
  places := by
    rw [List.length_map]
    exact t.places
  index_nodup := t.index_nodup

theorem entries_map (f : α → β) (t : Table α) :
    (t.map f).entries = t.entries.map fun entry => (entry.1, f entry.2) :=
  List.zip_map_right

theorem get?_map (f : α → β) (t : Table α) (key : String) :
    (t.map f).get? key = (t.get? key).map f := by
  rw [get?, get?, Option.map_bind]
  exact congrArg _ (funext fun _ => List.getElem?_map)

end Table

end TypeSchema
