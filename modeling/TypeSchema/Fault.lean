import TypeSchema.Definition.Basic
import TypeSchema.Diagnostic
import TypeSchema.Token

/-!
# Faults

Why a text is not a module. A fault is the cause, with the names and places that it is about; its
message and its diagnostic are made from these.
-/

namespace TypeSchema

inductive Payload where
  | primitive
  | definition (kind : Definition.Kind)
  deriving DecidableEq, Repr

def Payload.text : Payload → String
  | .primitive => "builtin"
  | .definition kind => kind.keyword

inductive Fault where
  /-- none of the expected kinds, but another token -/
  | unexpected (expected : List Token.Kind) (found : Token)
  | unknownKeyword (keyword : String) (location : Location)
  | unknownOption (option : String) (location : Location)
  | repeatedParameter (name : String) (location : Location)
  | unsuitablePayload (name : String) (found : Payload) (location : Location)
  | unknownReference (name : String) (location : Location)
  | unknownModule (name : String) (location : Location)
  | repeatedDefinition (name : String) (location previous : Location)
  | repeatedMember (name definition : String) (location previous : Location)
  | reservedName (name : String) (location : Location)
  deriving DecidableEq, Repr

/-- A choice in words: commas between all but the last two, which `or` joins. -/
def choice : List String → String
  | [] => ""
  | [a] => a
  | [a, b] => a ++ " or " ++ b
  | a :: rest => a ++ ", " ++ choice rest

def inTicks (name : String) : String := "`" ++ name ++ "`"

namespace Fault

def message : Fault → String
  | .unexpected expected found =>
    "expected " ++ choice (expected.map (·.describe)) ++ ", found " ++ found.kind.describe
  | .unknownKeyword keyword _ => "unknown definition keyword " ++ inTicks keyword
  | .unknownOption option _ => "invalid union option " ++ inTicks option
  | .repeatedParameter name _ => "type parameter " ++ inTicks name ++ " is declared twice"
  | .unsuitablePayload name found _ =>
    "embedded union payload " ++ inTicks name ++ " must be a struct, found " ++ found.text
  | .unknownReference name _ => "unknown reference " ++ inTicks name
  | .unknownModule name _ => "unknown module " ++ inTicks name
  | .repeatedDefinition name _ _ => "duplicate definition " ++ inTicks name
  | .repeatedMember name definition _ _ =>
    inTicks name ++ " is declared twice in " ++ inTicks definition
  | .reservedName name _ => inTicks name ++ " is a builtin type and cannot be redefined"

def location : Fault → Location
  | .unexpected _ found => found.location
  | .unknownKeyword _ location | .unknownOption _ location | .repeatedParameter _ location
  | .unsuitablePayload _ _ location | .unknownReference _ location | .unknownModule _ location
  | .repeatedDefinition _ location _ | .repeatedMember _ _ location _
  | .reservedName _ location => location

def code : Fault → Diagnostic.Code
  | .unexpected .. => .unexpectedToken
  | .unknownKeyword .. => .unknownKeyword
  | .unknownOption .. => .unknownOption
  | .repeatedParameter .. => .repeatedParameter
  | .unsuitablePayload .. => .unsuitablePayload
  | .unknownReference .. => .unknownReference
  | .unknownModule .. => .unknownModule
  | .repeatedDefinition .. => .repeatedDefinition
  | .repeatedMember .. => .repeatedMember
  | .reservedName .. => .reservedName

open Diagnostic (Label)

def nameWidth (name : String) : Nat := min name.length Location.limit

def labels : Fault → List Label
  | .unexpected expected found =>
    let message := match expected with
      | [kind] => "expected " ++ kind.describe
      | _ => "unexpected token"
    [.primary found.location found.width message]
  | .unknownKeyword keyword l => [.primary l (nameWidth keyword) "not a definition keyword"]
  | .unknownOption option l => [.primary l (nameWidth option) "unknown option"]
  | .repeatedParameter name l => [.primary l (nameWidth name) "declared again here"]
  | .unsuitablePayload name found l => [.primary l (nameWidth name) ("this is a " ++ found.text)]
  | .unknownReference name l => [.primary l (nameWidth name) "not defined at this point"]
  | .unknownModule name l => [.primary l (nameWidth name) "no module with this name"]
  | .repeatedDefinition _ l previous =>
    [.primary l 1 "redefined here", .secondary previous 1 "first defined here"]
  | .repeatedMember name _ l previous =>
    [.primary l (nameWidth name) "declared again here",
      .secondary previous (nameWidth name) "first declared here"]
  | .reservedName name l => [.primary l (nameWidth name) "builtin type name"]

def notes : Fault → List String
  | .unexpected expected _ =>
    if .space ∈ expected then
      ["fields, constructors and enum values are indented by exactly four spaces"]
    else []
  | .unknownKeyword .. =>
    ["definitions start with `struct`, `union`, `enum`, `untagged union` or `import`"]
  | .unsuitablePayload .. =>
    ["the tag field of an embedded union is merged into the payload's fields"]
  | .unknownReference .. =>
    ["definitions can only refer to definitions above them and to themselves"]
  | .unknownModule .. => ["modules must be parsed before the modules that import them"]
  | .unknownOption .. | .repeatedParameter .. | .repeatedDefinition .. | .repeatedMember ..
  | .reservedName .. => []

def suggestions : Fault → List String
  | .unknownOption .. => ["union options are `tag = <name>` and `embedded`"]
  | .reservedName .. => ["choose a name that is not a builtin type"]
  | _ => []

def toDiagnostic (f : Fault) : Diagnostic where
  code := f.code
  message := f.message
  labels := f.labels
  notes := f.notes
  suggestions := f.suggestions

end Fault

end TypeSchema
