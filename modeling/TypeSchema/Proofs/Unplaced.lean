import TypeSchema.Proofs.Relocated
import TypeSchema.Proofs.Scope.Known

/-!
# Definitions without their places

`unplaced` puts all that a definition is made of at the same place, also the definitions that it
refers to, whatever module they are from. Two definitions that are the same without their places
differ in nothing but locations, and are written the same.
-/

namespace TypeSchema

abbrev Reference.unplaced (r : Reference) : Reference := r.relocated (fun _ => .start) true

abbrev Argument.unplaced (a : Argument) : Argument := a.relocated (fun _ => .start) true

abbrev TypeExpr.unplaced (t : TypeExpr) : TypeExpr := t.relocated (fun _ => .start) true

abbrev Member.unplaced (m : Member) : Member := m.relocated (fun _ => .start) true

abbrev Struct.unplaced (s : Struct) : Struct := s.relocated (fun _ => .start) true

abbrev Variant.unplaced (v : Variant) : Variant := v.relocated (fun _ => .start) true

abbrev Definition.unplaced (d : Definition) : Definition := d.relocated (fun _ => .start) true

abbrev Module.unplaced (m : Module) : Module := m.relocated (fun _ => .start) true

theorem Library.get?_eq_find? (l : Library) (name : String) :
    l.get? name = l.modules.find? (·.name = name) := by
  have keyed := l.keyed
  rw [get?, Table.get?_eq_lookup, modules, ← Table.map_snd_entries]
  revert keyed
  induction l.table.entries with
  | nil => exact fun _ => rfl
  | cons entry entries ih =>
    intro keyed
    have hname : entry.1 = entry.2.name := keyed entry List.mem_cons_self
    rw [List.lookup_cons, List.map_cons, List.find?_cons,
      ih fun e he => keyed e (List.mem_cons_of_mem _ he), hname]
    by_cases h : name = entry.2.name
    · simp [h]
    · simp [beq_false_of_ne h, Ne.symm h]

/-- What is known in both places differs in nothing but locations. -/
structure Known.Alike (k k' : Known) : Prop where
  modules : k.library.modules.map Module.unplaced = k'.library.modules.map Module.unplaced
  earlier : k.earlier.map Definition.unplaced = k'.earlier.map Definition.unplaced

namespace Known.Alike

variable {k k' : Known}

theorem extend (h : k.Alike k') {d d' : Definition} (hd : d'.unplaced = d.unplaced) :
    (k.extend d).Alike (k'.extend d') :=
  ⟨h.modules, by simp [Known.extend, h.earlier, hd]⟩

theorem find?_map {α : Type} {f : α → α} {p : α → Bool} (hp : ∀ a, p (f a) = p a) {as bs : List α}
    (h : as.map f = bs.map f) {a : α} (ha : as.find? p = some a) :
    ∃ b, bs.find? p = some b ∧ f b = f a := by
  have hf : (as.map f).find? p = some (f a) := by
    rw [List.find?_map, show p ∘ f = p from funext hp, ha]
    rfl
  rw [h, List.find?_map, show p ∘ f = p from funext hp] at hf
  exact Option.map_eq_some_iff.mp hf

theorem find? (h : k.Alike k') {name : String} {d : Definition} (hd : k.find? name = some d) :
    ∃ d', k'.find? name = some d' ∧ d'.unplaced = d.unplaced :=
  find?_map (fun d => by rw [Definition.key_relocated]) h.earlier hd

theorem symm (h : k.Alike k') : k'.Alike k := ⟨h.modules.symm, h.earlier.symm⟩

theorem find?_none (h : k.Alike k') {name : String} (hn : k.find? name = none) :
    k'.find? name = none := by
  cases hd : k'.find? name with
  | none => rfl
  | some d =>
    obtain ⟨d', hd', -⟩ := h.symm.find? hd
    rw [hn] at hd'
    cases hd'

theorem free (h : k.Alike k') {name : String} (hn : k.Free name) : k'.Free name := by
  rw [free_iff] at hn ⊢
  exact ⟨hn.1, h.find?_none hn.2⟩

theorem moduleName (h : k.Alike k') (q : String) : k.moduleName q = k'.moduleName q := by
  have hf : ∀ ds : List Definition, ds.findSome? (importedAs? q) =
      (ds.map Definition.unplaced).findSome? (importedAs? q) := by
    intro ds
    rw [List.findSome?_map]
    exact congrArg (List.findSome? · ds) (funext fun d => (importedAs?_relocated q d).symm)
  rw [Known.moduleName, Known.moduleName, hf, h.earlier, ← hf]

theorem get? (h : k.Alike k') {name key : String} {m : Module} {d : Definition}
    (hm : k.library.get? name = some m) (hd : m.get? key = some d) :
    ∃ m' d', k'.library.get? name = some m' ∧ m'.get? key = some d' ∧
      d'.unplaced = d.unplaced := by
  rw [Library.get?_eq_find?] at hm
  obtain ⟨m', hm', hunplaced⟩ := find?_map (f := Module.unplaced) (fun _ => rfl) h.modules hm
  have hget : m'.unplaced.get? key = (m'.get? key).map Definition.unplaced :=
    m'.get?_relocated key
  rw [hunplaced, m.get?_relocated, hd] at hget
  obtain ⟨d', hd', heq⟩ := Option.map_eq_some_iff.mp hget.symm
  exact ⟨m', d', by rw [Library.get?_eq_find?, hm'], hd', heq⟩

theorem contains (h : k.Alike k') {name : String} (hm : k.library.contains name) :
    k'.library.contains name := by
  obtain ⟨m, hm⟩ := Library.contains_iff.mp hm
  rw [Library.get?_eq_find?] at hm
  obtain ⟨m', hm', -⟩ := find?_map (f := Module.unplaced) (fun _ => rfl) h.modules hm
  refine Library.contains_iff.mpr ⟨m', ?_⟩
  rw [Library.get?_eq_find?, hm']

end Known.Alike

end TypeSchema
