import TypeSchema.Location
import TypeSchema.Primitive

/-!
# Definitions

A definition gives a top-level name its meaning. The types in it have their names resolved
already: a reference to a finished definition holds that definition, so a definition can be
understood without its module. A definition that mentions itself does not exist yet at that
place, and the reference then keeps its name and its parameters only.
-/

namespace TypeSchema

/-- The name that a definition carries and the place of the keyword that begins it. -/
structure Heading where
  name : String
  location : Location
  deriving DecidableEq, Repr

inductive Enum.Value where
  | string (content : String)
  | number (value : UInt64)
  deriving DecidableEq, Repr

structure Enum.Item where
  tag : String
  value : Enum.Value
  deriving DecidableEq, Repr

structure Enum where
  heading : Heading
  items : List Enum.Item
  deriving DecidableEq, Repr

/-- Makes another module known under a qualifier. The heading has the name of that module. -/
structure Import where
  heading : Heading
  qualifier : String
  deriving DecidableEq, Repr

mutual

inductive Reference where
  | primitive (type : Primitive)
  /-- a finished definition of the same module -/
  | definition (target : Definition)
  /-- a finished definition of another module, with the qualifier as it was written -/
  | imported (qualifier : String) (target : Definition)
  /-- the definition that the name stands in, with that definition's parameters -/
  | itself (name : String) (parameters : List String)
  /-- a parameter of the definition that the name stands in -/
  | parameter (name : String)
  | applied (head : Reference) (arguments : List Argument)

inductive Argument where
  | parameter (name : String)
  | reference (target : Reference)

inductive TypeExpr where
  /-- no value at all: the type of a constructor that is only a tag -/
  | empty
  | literal (content : String)
  | reference (target : Reference)
  | array (size : UInt64) (item : TypeExpr)
  | slice (item : TypeExpr)
  | pointer (item : TypeExpr)
  | optional (item : TypeExpr)

structure Member where
  name : String
  type : TypeExpr

/-- A struct is generic if it has a parameter list, which may be empty. -/
structure Struct where
  heading : Heading
  generic : Option (List String)
  fields : List Member

/-- A constructor whose payload is merged with the tag: the payload has the tag as a field. -/
structure Variant where
  tag : String
  payload : Option Struct

inductive Union.Body where
  | tagged (generic : Option (List String)) (constructors : List Member)
  | embedded (parameters : List String) (variants : List Variant)

structure Union where
  heading : Heading
  tagField : String
  body : Union.Body

/-- A union whose values are told apart by their structure. -/
structure UntaggedUnion where
  heading : Heading
  cases : List Reference

inductive Definition where
  | struct (s : Struct)
  | union (u : Union)
  | enum (e : Enum)
  | untagged (u : UntaggedUnion)
  | imports (i : Import)

end

-- ---------------------------------------------------------------------------
-- Structs and unions
-- ---------------------------------------------------------------------------

instance : Inhabited TypeExpr := ⟨.empty⟩

def Union.defaultTagField : String := "type"

namespace Struct

def parameters (s : Struct) : List String := s.generic.getD []

/-- The struct with the field `tagField`, whose type is the literal `tag`, before its own. -/
def withTag (s : Struct) (tagField tag : String) : Struct :=
  { s with fields := ⟨tagField, .literal tag⟩ :: s.fields }

@[simp] theorem fields_withTag (s : Struct) (tagField tag : String) :
    (s.withTag tagField tag).fields = ⟨tagField, .literal tag⟩ :: s.fields := rfl

@[simp] theorem heading_withTag (s : Struct) (tagField tag : String) :
    (s.withTag tagField tag).heading = s.heading := rfl

@[simp] theorem parameters_withTag (s : Struct) (tagField tag : String) :
    (s.withTag tagField tag).parameters = s.parameters := rfl

end Struct

namespace Union

def parameters (u : Union) : List String :=
  match u.body with
  | .tagged generic _ => generic.getD []
  | .embedded parameters _ => parameters

def isEmbedded (u : Union) : Bool :=
  match u.body with
  | .tagged .. => false
  | .embedded .. => true

def tags (u : Union) : List String :=
  match u.body with
  | .tagged _ constructors => constructors.map (·.name)
  | .embedded _ variants => variants.map (·.tag)

end Union

-- ---------------------------------------------------------------------------
-- Definitions of any kind
-- ---------------------------------------------------------------------------

namespace Definition

inductive Kind where
  | struct | union | enum | untagged | imports
  deriving DecidableEq, Repr

def Kind.keyword : Kind → String
  | .struct => "struct"
  | .union => "union"
  | .enum => "enum"
  | .untagged => "untagged union"
  | .imports => "import"

def kind : Definition → Kind
  | .struct _ => .struct
  | .union _ => .union
  | .enum _ => .enum
  | .untagged _ => .untagged
  | .imports _ => .imports

def heading : Definition → Heading
  | .struct s => s.heading
  | .union u => u.heading
  | .enum e => e.heading
  | .untagged u => u.heading
  | .imports i => i.heading

def name (d : Definition) : String := d.heading.name

def location (d : Definition) : Location := d.heading.location

/-- The name that the module knows the definition by: of an import, the qualifier. -/
def key : Definition → String
  | .imports i => i.qualifier
  | d => d.name

def parameters : Definition → List String
  | .struct s => s.parameters
  | .union u => u.parameters
  | .enum _ | .untagged _ | .imports _ => []

def isGeneric (d : Definition) : Bool := !d.parameters.isEmpty

def asStruct? : Definition → Option Struct
  | .struct s => some s
  | _ => none

def asUnion? : Definition → Option Union
  | .union u => some u
  | _ => none

end Definition

-- ---------------------------------------------------------------------------
-- References and types
-- ---------------------------------------------------------------------------

namespace Reference

/-- The name without its qualifier and without arguments. -/
def name : Reference → String
  | .primitive p => p.name
  | .definition d | .imported _ d => d.name
  | .itself name _ | .parameter name => name
  | .applied head _ => head.name

/-- The finished definition that the reference or its head points at. -/
def target? : Reference → Option Definition
  | .definition d | .imported _ d => some d
  | .applied head _ => head.target?
  | .primitive _ | .itself .. | .parameter _ => none

end Reference

namespace TypeExpr

def isEmpty : TypeExpr → Bool
  | .empty => true
  | _ => false

/-- The reference that arrays, slices, pointers and options are wrapped around. -/
def reference? : TypeExpr → Option Reference
  | .reference r => some r
  | .array _ item | .slice item | .pointer item | .optional item => item.reference?
  | .empty | .literal _ => none

end TypeExpr

end TypeSchema
