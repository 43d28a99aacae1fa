import TypeSchema.Proofs.Meaning

/-!
# Definitions at other places

`relocated f abroad` puts what stands at a place `l` of a text at the place `f l`. A definition takes
the definitions of the same text that it refers to along. Those of other modules stand in other
texts: they are taken along only if `abroad` says so. How a definition is called and written stays.
-/

namespace TypeSchema

variable {f : Location → Location} {abroad : Bool}

def Heading.relocated (f : Location → Location) (h : Heading) : Heading :=
  { h with location := f h.location }

def Enum.relocated (f : Location → Location) (e : Enum) : Enum :=
  { e with heading := e.heading.relocated f }

def Import.relocated (f : Location → Location) (i : Import) : Import :=
  { i with heading := i.heading.relocated f }

mutual

def Reference.relocated (f : Location → Location) (abroad : Bool) : Reference → Reference
  | .primitive p => .primitive p
  | .definition d => .definition (d.relocated f abroad)
  | .imported qualifier d => .imported qualifier (if abroad then d.relocated f abroad else d)
  | .itself name parameters => .itself name parameters
  | .parameter name => .parameter name
  | .applied head arguments =>
    .applied (head.relocated f abroad) (Argument.relocatedAll f abroad arguments)

def Reference.relocatedAll (f : Location → Location) (abroad : Bool) :
    List Reference → List Reference
  | [] => []
  | r :: rest => r.relocated f abroad :: Reference.relocatedAll f abroad rest

def Argument.relocated (f : Location → Location) (abroad : Bool) : Argument → Argument
  | .parameter name => .parameter name
  | .reference r => .reference (r.relocated f abroad)

def Argument.relocatedAll (f : Location → Location) (abroad : Bool) :
    List Argument → List Argument
  | [] => []
  | a :: rest => a.relocated f abroad :: Argument.relocatedAll f abroad rest

def TypeExpr.relocated (f : Location → Location) (abroad : Bool) : TypeExpr → TypeExpr
  | .empty => .empty
  | .literal content => .literal content
  | .reference r => .reference (r.relocated f abroad)
  | .array size item => .array size (item.relocated f abroad)
  | .slice item => .slice (item.relocated f abroad)
  | .pointer item => .pointer (item.relocated f abroad)
  | .optional item => .optional (item.relocated f abroad)

def Member.relocated (f : Location → Location) (abroad : Bool) : Member → Member
  | ⟨name, type⟩ => ⟨name, type.relocated f abroad⟩

def Member.relocatedAll (f : Location → Location) (abroad : Bool) : List Member → List Member
  | [] => []
  | m :: rest => m.relocated f abroad :: Member.relocatedAll f abroad rest

def Struct.relocated (f : Location → Location) (abroad : Bool) : Struct → Struct
  | ⟨heading, generic, fields⟩ =>
    ⟨heading.relocated f, generic, Member.relocatedAll f abroad fields⟩

def Variant.relocated (f : Location → Location) (abroad : Bool) : Variant → Variant
  | ⟨tag, none⟩ => ⟨tag, none⟩
  | ⟨tag, some payload⟩ => ⟨tag, some (payload.relocated f abroad)⟩

def Variant.relocatedAll (f : Location → Location) (abroad : Bool) : List Variant → List Variant
  | [] => []
  | v :: rest => v.relocated f abroad :: Variant.relocatedAll f abroad rest

def Union.Body.relocated (f : Location → Location) (abroad : Bool) : Union.Body → Union.Body
  | .tagged generic constructors => .tagged generic (Member.relocatedAll f abroad constructors)
  | .embedded parameters variants => .embedded parameters (Variant.relocatedAll f abroad variants)

def Union.relocated (f : Location → Location) (abroad : Bool) : Union → Union
  | ⟨heading, tagField, body⟩ => ⟨heading.relocated f, tagField, body.relocated f abroad⟩

def UntaggedUnion.relocated (f : Location → Location) (abroad : Bool) :
    UntaggedUnion → UntaggedUnion
  | ⟨heading, cases⟩ => ⟨heading.relocated f, Reference.relocatedAll f abroad cases⟩

def Definition.relocated (f : Location → Location) (abroad : Bool) : Definition → Definition
  | .struct s => .struct (s.relocated f abroad)
  | .union u => .union (u.relocated f abroad)
  | .enum e => .enum (e.relocated f)
  | .untagged u => .untagged (u.relocated f abroad)
  | .imports i => .imports (i.relocated f)

end

@[simp] theorem Reference.relocatedAll_eq_map (rs : List Reference) :
    Reference.relocatedAll f abroad rs = rs.map (·.relocated f abroad) := by
  induction rs with
  | nil => rfl
  | cons r rs ih => rw [Reference.relocatedAll, ih, List.map_cons]

@[simp] theorem Argument.relocatedAll_eq_map (as : List Argument) :
    Argument.relocatedAll f abroad as = as.map (·.relocated f abroad) := by
  induction as with
  | nil => rfl
  | cons a as ih => rw [Argument.relocatedAll, ih, List.map_cons]

@[simp] theorem Member.relocatedAll_eq_map (ms : List Member) :
    Member.relocatedAll f abroad ms = ms.map (·.relocated f abroad) := by
  induction ms with
  | nil => rfl
  | cons m ms ih => rw [Member.relocatedAll, ih, List.map_cons]

@[simp] theorem Variant.relocatedAll_eq_map (vs : List Variant) :
    Variant.relocatedAll f abroad vs = vs.map (·.relocated f abroad) := by
  induction vs with
  | nil => rfl
  | cons v vs ih => rw [Variant.relocatedAll, ih, List.map_cons]

-- ---------------------------------------------------------------------------
-- What a definition is called
-- ---------------------------------------------------------------------------

theorem Definition.heading_relocated (d : Definition) :
    (d.relocated f abroad).heading = d.heading.relocated f := by
  cases d with
  | struct s | union s | untagged s =>
    cases s
    rfl
  | enum | imports => rfl

@[simp] theorem Definition.name_relocated (d : Definition) :
    (d.relocated f abroad).name = d.name := by
  rw [name, heading_relocated]
  rfl

@[simp] theorem Definition.key_relocated (d : Definition) :
    (d.relocated f abroad).key = d.key := by
  cases d with
  | struct s => exact name_relocated (.struct s)
  | union u => exact name_relocated (.union u)
  | enum e => exact name_relocated (.enum e)
  | untagged u => exact name_relocated (.untagged u)
  | imports => rfl

@[simp] theorem Member.name_relocated (m : Member) : (m.relocated f abroad).name = m.name := by
  cases m
  rfl

@[simp] theorem Variant.tag_relocated (v : Variant) : (v.relocated f abroad).tag = v.tag := by
  obtain ⟨tag, payload⟩ := v
  cases payload <;> rfl

theorem Struct.withTag_relocated (s : Struct) (tagField tag : String) :
    (s.withTag tagField tag).relocated f abroad = (s.relocated f abroad).withTag tagField tag := by
  cases s
  rfl

theorem Reference.eq_parameter_of_relocated {r : Reference} {x : String}
    (h : r.relocated f abroad = .parameter x) : r = .parameter x := by
  cases r with
  | parameter name => exact h
  | _ => cases h

theorem Known.importedAs?_relocated (q : String) (d : Definition) :
    importedAs? q (d.relocated f abroad) = importedAs? q d := by
  cases d <;> rfl

-- ---------------------------------------------------------------------------
-- How a definition is written
-- ---------------------------------------------------------------------------

mutual

theorem Reference.text_relocated : ∀ r : Reference, (r.relocated f abroad).text = r.text
  | .primitive _ | .itself _ _ | .parameter _ => rfl
  | .definition d => d.name_relocated
  | .imported q d => by
    cases abroad with
    | true => exact congrArg (q ++ "." ++ ·) d.name_relocated
    | false => rfl
  | .applied head as => by
    rw [Reference.relocated, Reference.text, Reference.text, head.text_relocated,
      Argument.texts_relocated as]

theorem Argument.text_relocated : ∀ a : Argument, (a.relocated f abroad).text = a.text
  | .parameter _ => rfl
  | .reference r => r.text_relocated

theorem Argument.texts_relocated : ∀ as : List Argument,
    Argument.texts (Argument.relocatedAll f abroad as) = Argument.texts as
  | [] => rfl
  | a :: as => by
    rw [Argument.relocatedAll, Argument.texts, Argument.texts, a.text_relocated,
      Argument.texts_relocated as]

end

theorem TypeExpr.text_relocated : ∀ t : TypeExpr, (t.relocated f abroad).text = t.text
  | .empty | .literal _ => rfl
  | .reference r => r.text_relocated
  | .array size item => congrArg ("[" ++ toString size.toNat ++ "]" ++ ·) item.text_relocated
  | .slice item => congrArg ("[]" ++ ·) item.text_relocated
  | .pointer item => congrArg ("*" ++ ·) item.text_relocated
  | .optional item => congrArg ("?" ++ ·) item.text_relocated

theorem Member.fieldText_relocated (m : Member) :
    (m.relocated f abroad).fieldText = m.fieldText := by
  rw [fieldText, fieldText, ← m.type.text_relocated]
  cases m
  rfl

theorem Member.constructorText_relocated (m : Member) :
    (m.relocated f abroad).constructorText = m.constructorText := by
  obtain ⟨name, type⟩ := m
  have h : (type.relocated f abroad).text = type.text := type.text_relocated
  cases type <;>
    simp_all [Member.relocated, TypeExpr.relocated, constructorText, TypeExpr.isEmpty]

theorem Variant.text_relocated (v : Variant) : (v.relocated f abroad).text = v.text := by
  obtain ⟨tag, payload⟩ := v
  cases payload with
  | none => rfl
  | some s =>
    cases s
    rfl

theorem Definition.text_relocated (d : Definition) : (d.relocated f abroad).text = d.text := by
  cases d with
  | enum e => rfl
  | imports i => rfl
  | struct s =>
    obtain ⟨heading, generic, fields⟩ := s
    simp [Definition.relocated, Struct.relocated, Definition.text, Struct.text, Struct.parameters,
      Heading.relocated, Function.comp_def, Member.fieldText_relocated]
  | untagged u =>
    obtain ⟨heading, cases⟩ := u
    simp [Definition.relocated, UntaggedUnion.relocated, Definition.text, UntaggedUnion.text,
      Heading.relocated, Function.comp_def, Reference.text_relocated]
  | union u =>
    obtain ⟨heading, tagField, body⟩ := u
    cases body <;>
      simp [Definition.relocated, Union.relocated, Union.Body.relocated, Definition.text,
        Union.text, Union.parameters, Union.optionList, Union.isEmbedded, Union.memberTexts,
        Heading.relocated, Function.comp_def, Member.constructorText_relocated,
        Variant.text_relocated]

-- ---------------------------------------------------------------------------
-- Modules
-- ---------------------------------------------------------------------------

def Module.relocated (f : Location → Location) (abroad : Bool) (m : Module) : Module where
  name := m.name
  file := m.file
  table := m.table.map (·.relocated f abroad)

theorem Module.get?_relocated (m : Module) (key : String) :
    (m.relocated f abroad).get? key = (m.get? key).map (·.relocated f abroad) :=
  m.table.get?_map _ key

end TypeSchema
