import TypeSchema.Proofs.Grammar.Order
import TypeSchema.Proofs.Reader.Calls

/-!
# Members of one body

No name is declared twice in one body: not among the fields of a struct, the tags of a union or those
of an enum. The payload of an embedded union is put together from two bodies, the tag field from that
of the union and the other fields from that of a struct, and the two are not compared: a name comes
twice in the payload exactly if the struct has a field of the same name as the tag field.
-/

namespace TypeSchema

/-- The names that the body of the definition declares, in their order. -/
def Definition.members : Definition → List String
  | .struct s => s.fields.map (·.name)
  | .union u => u.tags
  | .enum e => e.items.map (·.tag)
  | .untagged _ | .imports _ => []

/-- The structs that the constructors of an embedded union hold, with the tag field merged in. -/
def Definition.payloads : Definition → List Struct
  | .union ⟨_, _, .embedded _ variants⟩ => variants.filterMap (·.payload)
  | _ => []

theorem Struct.nodup_withTag_iff {s : Struct} (h : (s.fields.map (·.name)).Nodup)
    (tagField tag : String) :
    ((s.withTag tagField tag).fields.map (·.name)).Nodup ↔ tagField ∉ s.fields.map (·.name) := by
  rw [fields_withTag, List.map_cons, List.nodup_cons, and_iff_left h]

namespace Known

variable {k : Known} {t : DefinitionSyntax} {d : Definition}

theorem Means.members (h : k.Means t d) : d.members = t.members.map (·.text) := by
  cases h with
  | struct _ _ _ _ hm | union _ _ _ _ hm | embedded _ _ _ hm | enum _ _ hm =>
    refine (names_of_lines hm fun line b hb => ?_).symm
    cases hb <;> rfl
  | untagged _ _ | imports _ _ => rfl

theorem Means.nodup_members (h : k.Means t d) : d.members.Nodup := by
  rw [h.members]
  cases h with
  | struct _ _ _ distinct _ | union _ _ _ distinct _ | embedded _ _ distinct _
  | enum _ distinct _ => exact distinct
  | untagged _ _ | imports _ _ => exact .nil

end Known

namespace Module

variable {file text : String} {l : Library} {m : Module}

theorem read_nodup_members (h : Module.read file text l = .ok m) :
    ∀ d ∈ m.definitions, d.members.Nodup := by
  obtain ⟨trees, ds, -, hall, hholds⟩ := read_ok h
  intro d hd
  rw [hholds.definitions] at hd
  obtain ⟨i, hi⟩ := List.mem_iff_getElem?.mp hd
  obtain ⟨t, -, hm⟩ := hall.means hi
  exact hm.nodup_members

/-- In a module that was read no body declares a name twice. Each payload of an embedded union is an
earlier struct with the tag field in front, and its fields have different names exactly if no field
of that struct is called like the tag field. -/
theorem read_members (h : Module.read file text l = .ok m) :
    (∀ d ∈ m.definitions, d.members.Nodup) ∧
      ∀ (i : Nat) heading field parameters variants,
        m.definitions[i]? = some (.union ⟨heading, field, .embedded parameters variants⟩) →
        ∀ v ∈ variants, ∀ p, v.payload = some p →
          ∃ s, .struct s ∈ m.definitions.take i ∧ p = s.withTag field v.tag ∧
            ((p.fields.map (·.name)).Nodup ↔ field ∉ s.fields.map (·.name)) := by
  have nodup := read_nodup_members h
  refine ⟨nodup, fun i heading field parameters variants hi v hv p hp => ?_⟩
  obtain ⟨trees, ds, -, hall, hholds⟩ := read_ok h
  rw [hholds.definitions] at hi nodup ⊢
  obtain ⟨t, -, hm⟩ := hall.means hi
  obtain ⟨s, hs, rfl⟩ := hm.payload hv hp
  exact ⟨s, hs, rfl, s.nodup_withTag_iff (nodup _ (List.mem_of_mem_take hs)) _ _⟩

/-- A tag field of its own name beside the field of the struct. -/
theorem read_members_of_other_field :
    let source := "struct Movie \x7b\n    title: String\n\x7d\n" ++
      "union(tag = kind, embedded) Media \x7b\n    Film: Movie\n    Nothing\n\x7d\n"
    ∃ m, Module.read "media.gotyno" source .empty = .ok m ∧
      m.definitions.map (fun d => d.payloads.map (·.fields.map (·.name))) =
        [[], [["kind", "title"]]] ∧
      (∀ d ∈ m.definitions, d.members.Nodup) ∧
      ∀ (i : Nat) heading field parameters variants,
        m.definitions[i]? = some (.union ⟨heading, field, .embedded parameters variants⟩) →
        ∀ v ∈ variants, ∀ p, v.payload = some p →
          ∃ s, .struct s ∈ m.definitions.take i ∧ p = s.withTag field v.tag ∧
            ((p.fields.map (·.name)).Nodup ↔ field ∉ s.fields.map (·.name)) := by
  intro source
  obtain ⟨m, h, hnames⟩ := Library.ok_of_map_toOption
    (x := Module.read "media.gotyno" source .empty)
    (f := fun m => m.definitions.map fun d => d.payloads.map (·.fields.map (·.name)))
    (b := [[], [["kind", "title"]]]) (by decide +kernel)
  exact ⟨m, h, hnames, read_members h⟩

/-- The tag field of the union and a field of the struct may have one name. -/
theorem read_repeats_tag_field :
    let source := "struct Movie \x7b\n    kind: String\n\x7d\n" ++
      "union(tag = kind, embedded) Media \x7b\n    Film: Movie\n\x7d\n"
    ∃ m, Module.read "media.gotyno" source .empty = .ok m ∧
      ∃ d ∈ m.definitions, ∃ p ∈ d.payloads, p.fields.map (·.name) = ["kind", "kind"] ∧
        ¬(p.fields.map (·.name)).Nodup := by
  intro source
  obtain ⟨m, h, hnames⟩ := Library.ok_of_map_toOption
    (x := Module.read "media.gotyno" source .empty)
    (f := fun m => m.definitions.map fun d => d.payloads.map (·.fields.map (·.name)))
    (b := [[], [["kind", "kind"]]]) (by decide +kernel)
  have hmem : [["kind", "kind"]] ∈
      m.definitions.map fun d => d.payloads.map (·.fields.map (·.name)) := by
    rw [hnames]
    simp
  obtain ⟨d, hd, hpayloads⟩ := List.mem_map.mp hmem
  have hmem : ["kind", "kind"] ∈ d.payloads.map (·.fields.map (·.name)) := by simp [hpayloads]
  obtain ⟨p, hp, hfields⟩ := List.mem_map.mp hmem
  exact ⟨m, h, d, hd, p, hp, hfields, by simp [hfields]⟩

end Module

end TypeSchema
