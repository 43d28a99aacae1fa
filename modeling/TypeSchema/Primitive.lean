/-!
# Primitive types

The types that every module has without defining them: text, truth values, and numbers of
fixed width. Their names are reserved.
-/

namespace TypeSchema

inductive Width where
  | bits8 | bits16 | bits32 | bits64 | bits128
  deriving DecidableEq, Repr

inductive FloatWidth where
  | bits32 | bits64 | bits128
  deriving DecidableEq, Repr

inductive Primitive where
  | string
  | boolean
  | unsigned (width : Width)
  | signed (width : Width)
  | float (width : FloatWidth)
  deriving DecidableEq, Repr

namespace Primitive

def all : List Primitive :=
  let widths := [Width.bits8, .bits16, .bits32, .bits64, .bits128]
  [.string, .boolean] ++ widths.map unsigned ++ widths.map signed ++
    [float .bits32, float .bits64, float .bits128]

def name : Primitive → String
  | .string => "String"
  | .boolean => "Boolean"
  | .unsigned .bits8 => "U8"
  | .unsigned .bits16 => "U16"
  | .unsigned .bits32 => "U32"
  | .unsigned .bits64 => "U64"
  | .unsigned .bits128 => "U128"
  | .signed .bits8 => "I8"
  | .signed .bits16 => "I16"
  | .signed .bits32 => "I32"
  | .signed .bits64 => "I64"
  | .signed .bits128 => "I128"
  | .float .bits32 => "F32"
  | .float .bits64 => "F64"
  | .float .bits128 => "F128"

def ofName? (text : String) : Option Primitive := all.find? (·.name = text)

/-- Whether `text` is the name of a primitive type, so that no definition may take it. -/
def isName (text : String) : Bool := (ofName? text).isSome

def isUnsigned : Primitive → Bool
  | .unsigned _ => true
  | _ => false

def isSigned : Primitive → Bool
  | .signed _ => true
  | _ => false

def isFloat : Primitive → Bool
  | .float _ => true
  | _ => false

theorem mem_all (p : Primitive) : p ∈ all := by
  cases p with
  | string | boolean => decide
  | unsigned width | signed width | float width => cases width <;> decide

theorem ofName?_name (p : Primitive) : ofName? p.name = some p := by
  cases p with
  | string | boolean => decide
  | unsigned width | signed width | float width => cases width <;> decide

theorem name_of_ofName? {text : String} {p : Primitive} (h : ofName? text = some p) :
    p.name = text := by
  simpa using List.find?_some h

end Primitive

end TypeSchema
