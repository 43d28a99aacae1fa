import TypeSchema.Definition.Basic

/-!
# The written form of definitions

`Definition.text` writes a definition the way it is read: a member a line, indented by four
spaces, with a tag field and a qualifier only where they differ from what is understood without
them. Text in quotes is written as it stands, since there are no escapes.
-/

namespace TypeSchema

def parameterList (names : List String) : String :=
  if names.isEmpty then "" else "<" ++ ", ".intercalate names ++ ">"

def quoted (content : String) : String := "\"" ++ content ++ "\""

def bodyLine (text : String) : String := "    " ++ text ++ "\n"

def bodyText (introduction : String) (members : List String) : String :=
  introduction ++ " \x7b\n" ++ String.join (members.map bodyLine) ++ "\x7d"

-- ---------------------------------------------------------------------------
-- Types
-- ---------------------------------------------------------------------------

mutual

def Reference.text : Reference → String
  | .imported qualifier d => qualifier ++ "." ++ d.name
  | .applied head arguments =>
    head.text ++ "<" ++ ", ".intercalate (Argument.texts arguments) ++ ">"
  | .primitive p => p.name
  | .definition d => d.name
  | .itself name _ | .parameter name => name

def Argument.text : Argument → String
  | .parameter name => name
  | .reference r => r.text

def Argument.texts : List Argument → List String
  | [] => []
  | a :: rest => a.text :: Argument.texts rest

end

theorem Argument.texts_eq_map (arguments : List Argument) :
    Argument.texts arguments = arguments.map Argument.text := by
  induction arguments with
  | nil => rfl
  | cons a rest ih => simp [Argument.texts, ih]

def TypeExpr.text : TypeExpr → String
  | .empty => ""
  | .literal content => quoted content
  | .reference r => r.text
  | .array size item => "[" ++ toString size.toNat ++ "]" ++ item.text
  | .slice item => "[]" ++ item.text
  | .pointer item => "*" ++ item.text
  | .optional item => "?" ++ item.text

def Enum.Value.text : Enum.Value → String
  | .string content => quoted content
  | .number value => toString value.toNat

-- ---------------------------------------------------------------------------
-- Members
-- ---------------------------------------------------------------------------

namespace Member

def fieldText (m : Member) : String := m.name ++ ": " ++ m.type.text

def constructorText (m : Member) : String :=
  if m.type.isEmpty then m.name else m.name ++ ": " ++ m.type.text

end Member

/-- The payload is written as the struct that it was made from. -/
def Variant.text (v : Variant) : String :=
  match v.payload with
  | none => v.tag
  | some s => v.tag ++ ": " ++ s.heading.name

-- ---------------------------------------------------------------------------
-- Definitions
-- ---------------------------------------------------------------------------

def Struct.text (s : Struct) : String :=
  bodyText ("struct " ++ s.heading.name ++ parameterList s.parameters) (s.fields.map (·.fieldText))

namespace Union

def optionList (u : Union) : String :=
  let tag := if u.tagField = defaultTagField then [] else ["tag = " ++ u.tagField]
  let options := tag ++ if u.isEmbedded then ["embedded"] else []
  if options.isEmpty then "" else "(" ++ ", ".intercalate options ++ ")"

def memberTexts (u : Union) : List String :=
  match u.body with
  | .tagged _ constructors => constructors.map (·.constructorText)
  | .embedded _ variants => variants.map (·.text)

def text (u : Union) : String :=
  bodyText ("union" ++ u.optionList ++ " " ++ u.heading.name ++ parameterList u.parameters)
    u.memberTexts

end Union

def Enum.text (e : Enum) : String :=
  bodyText ("enum " ++ e.heading.name) (e.items.map fun i => i.tag ++ " = " ++ i.value.text)

def UntaggedUnion.text (u : UntaggedUnion) : String :=
  bodyText ("untagged union " ++ u.heading.name) (u.cases.map (·.text))

def Import.text (i : Import) : String :=
  if i.qualifier = i.heading.name then "import " ++ i.heading.name
  else "import " ++ i.heading.name ++ " = " ++ i.qualifier

def Definition.text : Definition → String
  | .struct s => s.text
  | .union u => u.text
  | .enum e => e.text
  | .untagged u => u.text
  | .imports i => i.text

end TypeSchema
