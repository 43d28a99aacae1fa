import Mathlib.Data.List.Forall2
import TypeSchema.Definition.Printer
import TypeSchema.Module
import TypeSchema.Natural
import TypeSchema.Proofs.Syntax

/-!
# What syntax means

The static rules of the language, as relations between trees and definitions. A tree means nothing
if it breaks a rule: if a name in it stands for nothing, if a definition takes a name that is not
free, or if parameters or members repeat. How a text is laid out plays no part here.
-/

namespace TypeSchema

/-- What is known where a definition begins. -/
structure Known where
  library : Library
  /-- the definitions of the same module before it, in their order -/
  earlier : List Definition

namespace Known

def find? (k : Known) (name : String) : Option Definition := k.earlier.find? (·.key = name)

/-- The module that a definition makes known under the qualifier. -/
def importedAs? (qualifier : String) : Definition → Option String
  | .imports i => if i.qualifier = qualifier then some i.heading.name else none
  | _ => none

/-- The module that a qualifier stands for: that of the import before it, or else its namesake. -/
def moduleName (k : Known) (qualifier : String) : String :=
  (k.earlier.findSome? (importedAs? qualifier)).getD qualifier

def Free (k : Known) (name : String) : Prop :=
  Primitive.ofName? name = none ∧ ∀ d ∈ k.earlier, d.key ≠ name

def extend (k : Known) (d : Definition) : Known := { k with earlier := k.earlier ++ [d] }

end Known

/-- What is known inside of a definition. -/
structure Inside extends Known where
  name : String
  parameters : List String

-- ---------------------------------------------------------------------------
-- Types
-- ---------------------------------------------------------------------------

namespace Inside

/-- A name without a qualifier. The first of these meanings that it has is the one it stands for. -/
inductive NameMeans (s : Inside) (x : String) : Reference → Prop
  | primitive {p} : Primitive.ofName? x = some p → NameMeans s x (.primitive p)
  | definition {d} : Primitive.ofName? x = none → s.find? x = some d →
      NameMeans s x (.definition d)
  | itself : Primitive.ofName? x = none → s.find? x = none → x = s.name →
      NameMeans s x (.itself s.name s.parameters)
  | parameter : Primitive.ofName? x = none → s.find? x = none → x ≠ s.name →
      x ∈ s.parameters → NameMeans s x (.parameter x)

inductive HeadMeans (s : Inside) : Option Token → Token → Reference → Prop
  | bare {n r} : s.NameMeans n.text r → HeadMeans s none n r
  | qualified {q n m d} : s.library.get? (s.moduleName q.text) = some m →
      m.get? n.text = some d → HeadMeans s (some q) n (.imported q.text d)

mutual

inductive ReferenceMeans (s : Inside) : ReferenceSyntax → Reference → Prop
  | plain {q n r} : s.HeadMeans q n r → ReferenceMeans s ⟨q, n, []⟩ r
  | applied {q n r arguments as} : s.HeadMeans q n r → arguments ≠ [] →
      List.Forall₂ (ArgumentMeans s) arguments as →
      ReferenceMeans s ⟨q, n, arguments⟩ (.applied r as)

/-- A parameter as an argument is no reference. -/
inductive ArgumentMeans (s : Inside) : ReferenceSyntax → Argument → Prop
  | parameter {t x} : ReferenceMeans s t (.parameter x) → ArgumentMeans s t (.parameter x)
  | reference {t r} : ReferenceMeans s t r → (∀ x, r ≠ .parameter x) →
      ArgumentMeans s t (.reference r)

end

inductive TypeMeans (s : Inside) : TypeSyntax → TypeExpr → Prop
  | literal {t content} : t.text = quoted content → TypeMeans s (.literal t) (.literal content)
  | reference {t r} : s.ReferenceMeans t r → TypeMeans s (.reference t) (.reference r)
  | array {size n item type} : Natural.value size.text.toList = n.toNat →
      TypeMeans s item type → TypeMeans s (.array size item) (.array n type)
  | slice {item type} : TypeMeans s item type → TypeMeans s (.slice item) (.slice type)
  | pointer {item type} : TypeMeans s item type → TypeMeans s (.pointer item) (.pointer type)
  | optional {item type} : TypeMeans s item type → TypeMeans s (.optional item) (.optional type)

inductive FieldMeans (s : Inside) : Token × TypeSyntax → Member → Prop
  | mk {n t type} : s.TypeMeans t type → FieldMeans s (n, t) ⟨n.text, type⟩

inductive ConstructorMeans (s : Inside) : Token × Option TypeSyntax → Member → Prop
  | bare {n} : ConstructorMeans s (n, none) ⟨n.text, .empty⟩
  | typed {n t type} : s.TypeMeans t type → ConstructorMeans s (n, some t) ⟨n.text, type⟩

end Inside

-- ---------------------------------------------------------------------------
-- Definitions
-- ---------------------------------------------------------------------------

def Distinct (names : List Token) : Prop := (names.map (·.text)).Nodup

/-- A parameter list is kept only if there are parameters. -/
inductive GenericMeans : List Token → Option (List String) → Prop
  | none : GenericMeans [] none
  | some {names} : names ≠ [] → GenericMeans names (some (names.map (·.text)))

def OptionSyntax.field? : OptionSyntax → Option String
  | .tag field => some field.text
  | .embedded => none

/-- The tag field of a union with the options: the last one named. -/
def tagFieldOf (options : List OptionSyntax) : String :=
  (options.filterMap OptionSyntax.field?).getLast?.getD Union.defaultTagField

inductive ValueMeans : Token → Enum.Value → Prop
  | string {t content} : t.kind = .text → t.text = quoted content → ValueMeans t (.string content)
  | number {t n} : t.kind = .natural → Natural.value t.text.toList = n.toNat →
      ValueMeans t (.number n)

inductive ItemMeans : Token × Token → Enum.Item → Prop
  | mk {tag t value} : ValueMeans t value → ItemMeans (tag, t) ⟨tag.text, value⟩

namespace Known

/-- The payload of a constructor of an embedded union is an earlier struct. -/
def PayloadMeans (k : Known) (p : Token) (s : Struct) : Prop :=
  Primitive.ofName? p.text = none ∧ k.find? p.text = some (.struct s)

/-- The payload of a constructor has a field that holds its tag, before the fields of the struct. -/
inductive VariantMeans (k : Known) (tagField : String) : Token × Option Token → Variant → Prop
  | bare {n} : VariantMeans k tagField (n, none) ⟨n.text, none⟩
  | payload {n p s} : k.PayloadMeans p s →
      VariantMeans k tagField (n, some p) ⟨n.text,
        some { s with fields := ⟨tagField, .literal n.text⟩ :: s.fields }⟩

inductive Means (k : Known) : DefinitionSyntax → Definition → Prop
  | struct {t n parameters fields generic members} : k.Free n.text → Distinct parameters →
      GenericMeans parameters generic → Distinct (fields.map Prod.fst) →
      List.Forall₂ (Inside.FieldMeans ⟨k, n.text, parameters.map (·.text)⟩) fields members →
      Means k (.struct t n parameters fields) (.struct ⟨⟨n.text, t.location⟩, generic, members⟩)
  | union {t options n parameters constructors generic members} : k.Free n.text →
      Distinct parameters → GenericMeans parameters generic →
      Distinct (constructors.map Prod.fst) →
      List.Forall₂ (Inside.ConstructorMeans ⟨k, n.text, parameters.map (·.text)⟩) constructors
        members →
      Means k (.union t options n parameters constructors)
        (.union ⟨⟨n.text, t.location⟩, tagFieldOf options, .tagged generic members⟩)
  | embedded {t options n parameters constructors variants} : k.Free n.text →
      Distinct parameters → Distinct (constructors.map Prod.fst) →
      List.Forall₂ (k.VariantMeans (tagFieldOf options)) constructors variants →
      Means k (.embedded t options n parameters constructors)
        (.union ⟨⟨n.text, t.location⟩, tagFieldOf options,
          .embedded (parameters.map (·.text)) variants⟩)
  | enum {t n lines items} : k.Free n.text → Distinct (lines.map Prod.fst) →
      List.Forall₂ ItemMeans lines items →
      Means k (.enum t n lines) (.enum ⟨⟨n.text, t.location⟩, items⟩)
  | untagged {t n lines cases} : k.Free n.text →
      List.Forall₂ (Inside.ReferenceMeans ⟨k, n.text, []⟩) lines cases →
      Means k (.untagged t n lines) (.untagged ⟨⟨n.text, t.location⟩, cases⟩)
  | imports {t module qualifier} : k.Free (qualifier.getD module).text →
      k.library.contains module.text →
      Means k (.imports t module qualifier)
        (.imports ⟨⟨module.text, t.location⟩, (qualifier.getD module).text⟩)

/-- Definitions one after another, where each knows those before it. -/
inductive AllMean : Known → List DefinitionSyntax → List Definition → Prop
  | nil {k} : AllMean k [] []
  | cons {k t d ts ds} : k.Means t d → AllMean (k.extend d) ts ds → AllMean k (t :: ts) (d :: ds)

end Known

end TypeSchema
