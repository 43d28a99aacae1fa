import TypeSchema.Diagnostic.Code
import TypeSchema.Location

/-!
# Diagnostics

A diagnostic tells one error: a message under a code, labels that point at the text, notes that
explain and suggestions that help.
-/

namespace TypeSchema

namespace Diagnostic

inductive Severity where
  | error | warning | note | help
  deriving DecidableEq, Repr

def Severity.text : Severity → String
  | .error => "error"
  | .warning => "warning"
  | .note => "note"
  | .help => "help"

/-- Whether a label marks the error itself or something that bears on it. -/
inductive Role where
  | primary | secondary
  deriving DecidableEq, Repr

structure Label where
  role : Role
  location : Location
  width : Nat
  message : String
  width_pos : 0 < width
  deriving DecidableEq

namespace Label

/-- A label that marks one character where none is asked for. -/
def of (role : Role) (location : Location) (width : Nat) (message : String) : Label :=
  { role, location, width := max 1 width, message, width_pos := by omega }

def primary : Location → Nat → String → Label := of .primary

def secondary : Location → Nat → String → Label := of .secondary

end Label

end Diagnostic

open Diagnostic in
structure Diagnostic where
  code : Code
  severity : Severity := .error
  message : String := ""
  labels : List Label := []
  notes : List String := []
  suggestions : List String := []
  deriving DecidableEq

namespace Diagnostic

def isError (d : Diagnostic) : Bool := d.severity = .error

/-- The place of the error: of several primary labels, the first counts. -/
def primaryLocation? (d : Diagnostic) : Option Location :=
  (d.labels.find? (·.role = .primary)).map (·.location)

def Label.text (l : Label) : String :=
  let marker := match l.role with
    | .primary => "-->"
    | .secondary => "   "
  "\n  " ++ marker ++ " " ++ toString l.location ++ ": " ++ l.message

/-- The diagnostic without the text that it is about. -/
def text (d : Diagnostic) : String :=
  d.severity.text ++ "[" ++ d.code.text ++ "]: " ++ d.message ++
    String.join (d.labels.map (·.text)) ++
    String.join (d.notes.map ("\n  = note: " ++ ·)) ++
    String.join (d.suggestions.map ("\n  = help: " ++ ·))

end Diagnostic

end TypeSchema
