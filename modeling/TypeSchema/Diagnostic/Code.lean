/-!
# Codes of diagnostics

Every kind of error has a code of an `E` and four digits. The first digit tells the stage that
found the error.
-/

namespace TypeSchema.Diagnostic

/-- What an error is about: how the text is written, what its names mean, or its modules. -/
inductive Stage where
  | syntactic | resolution | modules
  deriving DecidableEq, Repr

inductive Code where
  | unexpectedToken
  | unknownKeyword
  | unknownOption
  | repeatedParameter
  | unknownReference
  | unknownModule
  | repeatedDefinition
  | unsuitablePayload
  | repeatedMember
  | reservedName
  | repeatedModule
  deriving DecidableEq, Repr

namespace Code

def all : List Code :=
  [.unexpectedToken, .unknownKeyword, .unknownOption, .repeatedParameter, .unknownReference,
    .unknownModule, .repeatedDefinition, .unsuitablePayload, .repeatedMember, .reservedName,
    .repeatedModule]

def text : Code → String
  | .unexpectedToken => "E1001"
  | .unknownKeyword => "E1002"
  | .unknownOption => "E1003"
  | .repeatedParameter => "E1004"
  | .unknownReference => "E2001"
  | .unknownModule => "E2002"
  | .repeatedDefinition => "E2003"
  | .unsuitablePayload => "E2004"
  | .repeatedMember => "E2005"
  | .reservedName => "E2006"
  | .repeatedModule => "E3001"

def description : Code → String
  | .unexpectedToken => "unexpected token"
  | .unknownKeyword => "unknown definition keyword"
  | .unknownOption => "invalid union option"
  | .repeatedParameter => "duplicate type parameter"
  | .unknownReference => "unknown reference"
  | .unknownModule => "unknown module"
  | .repeatedDefinition => "duplicate definition"
  | .unsuitablePayload => "invalid embedded union payload"
  | .repeatedMember => "duplicate member"
  | .reservedName => "builtin type name redefined"
  | .repeatedModule => "duplicate module"

def stage : Code → Stage
  | .unexpectedToken | .unknownKeyword | .unknownOption | .repeatedParameter => .syntactic
  | .unknownReference | .unknownModule | .repeatedDefinition | .unsuitablePayload
  | .repeatedMember | .reservedName => .resolution
  | .repeatedModule => .modules

/-- The code with that text; the case of its letter does not matter. -/
def ofText? (text : String) : Option Code :=
  let upper := text.toList.map Char.toUpper
  all.find? (·.text.toList = upper)

end Code

end TypeSchema.Diagnostic
